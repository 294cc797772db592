import HdfsS3Gateway.Core.Bytes
import HdfsS3Gateway.Library.SortedSearch
import Mathlib.Data.List.Destutter
import Mathlib.Data.List.Sort

/-!
# Listing entries, comparators and pages

The pure part of a listing: entries in S3 key space, the comparators on output keys that work
without building the key, and the two paginators. `paginate` handles any delimiter by collecting
and sorting all outputs, `paginateSlash` merges two sorted arrays for the delimiter `/`.

A directory is ordered by its output key, the key with a trailing separator. Each comparator is
shown to be the byte order on output keys, which is all that later proofs use of it.
-/

namespace HdfsS3Gateway

open Lexicographic SortedSearch

/-- `ListEntry`: one object of a listing. -/
structure ListEntry where
  key : Str
  size : UInt64
  modificationTime : UInt64
  deriving DecidableEq, Repr

/-! ## Comparators on output keys -/

/-- The output key of a directory, `dir + "/"`. -/
def dirOutput (dir : Str) : Str := dir ++ [slash]

/-- `cmp_dir_output`: compare `dir + "/"` with another key, without building it. -/
def cmpDirOutput (dir other : Str) : Ordering :=
  let common := min dir.length other.length
  match cmpList (dir.take common) (other.take common) with
  | .eq =>
    if h : other.length ≤ dir.length then .gt
    else
      match cmpEntry slash (other.get ⟨dir.length, Nat.lt_of_not_le h⟩) with
      | .eq => if other.length = dir.length + 1 then .eq else .lt
      | o => o
  | o => o

/-- `cmp_dir_keys`: compare `a + "/"` with `b + "/"`, without building them. -/
def cmpDirKeys (a b : Str) : Ordering :=
  let common := min a.length b.length
  match cmpList (a.take common) (b.take common) with
  | .eq =>
    if a.length = b.length then .eq
    else if h : a.length < b.length then
      match cmpEntry slash (b.get ⟨a.length, h⟩) with
      | .eq => .lt
      | o => o
    else if h : b.length < a.length then
      match cmpEntry (a.get ⟨b.length, h⟩) slash with
      | .eq => .gt
      | o => o
    else .eq
  | o => o

/-- `cmp_file_dir`: compare a file key with a directory's output key. -/
def cmpFileDir (file dir : Str) : Ordering := (cmpDirOutput dir file).swap

/-- `dir_output_starts_with`: `dir + "/"` starts with the prefix. -/
def dirOutputStartsWith (dir pre : Str) : Bool :=
  if pre.length ≤ dir.length then startsWith dir pre
  else if h : pre.length = dir.length + 1 then
    startsWith pre dir && pre.get ⟨dir.length, by omega⟩ == slash
  else false

theorem cmpDirOutput_cons_cons (x y : UInt8) (d o : Str) :
    cmpDirOutput (x :: d) (y :: o) = (cmpEntry x y).then (cmpDirOutput d o) := by
  unfold cmpDirOutput
  simp only [List.length_cons, Nat.succ_min_succ, List.take_succ_cons, cmpList, List.get_cons_succ,
    Nat.add_le_add_iff_right, Nat.add_right_cancel_iff]
  cases cmpEntry x y <;> rfl

/-- Comparing without building the output key is comparing the output key. -/
theorem cmpDirOutput_eq (dir other : Str) : cmpDirOutput dir other = cmpList (dirOutput dir) other := by
  induction dir generalizing other with
  | nil =>
    cases other with
    | nil => rfl
    | cons y o =>
      cases o with
      | nil => cases h : cmpEntry slash y <;> simp [cmpDirOutput, dirOutput, cmpList, h]
      | cons z o => cases h : cmpEntry slash y <;> simp [cmpDirOutput, dirOutput, cmpList, h]
  | cons x d ih =>
    cases other with
    | nil => rfl
    | cons y o =>
      rw [cmpDirOutput_cons_cons, ih]
      rfl

/-- A directory does not compare greater exactly when its output key is at most the other key. -/
theorem cmpDirOutput_ne_gt_iff {dir other : Str} :
    (cmpDirOutput dir other != .gt) = true ↔ dirOutput dir ≤ other := by
  rw [bne_iff_ne, ne_eq, cmpDirOutput_eq, cmpList_eq_gt_iff, not_lt]

theorem cmpDirKeys_cons_cons (x y : UInt8) (a b : Str) :
    cmpDirKeys (x :: a) (y :: b) = (cmpEntry x y).then (cmpDirKeys a b) := by
  unfold cmpDirKeys
  simp only [List.length_cons, Nat.succ_min_succ, List.take_succ_cons, cmpList, List.get_cons_succ,
    Nat.add_lt_add_iff_right, Nat.add_right_cancel_iff]
  cases cmpEntry x y <;> rfl

/-- Comparing two directories is comparing their output keys. -/
theorem cmpDirKeys_eq (a b : Str) : cmpDirKeys a b = cmpList (dirOutput a) (dirOutput b) := by
  induction a generalizing b with
  | nil =>
    cases b with
    | nil => exact ((cmpList_eq_eq_iff _ _).mpr rfl).symm
    | cons y b =>
      cases h : cmpEntry slash y <;> simp [cmpDirKeys, dirOutput, cmpList, h]
      cases b <;> rfl
  | cons x a ih =>
    cases b with
    | nil =>
      cases h : cmpEntry x slash <;> simp [cmpDirKeys, dirOutput, cmpList, h]
      cases a <;> rfl
    | cons y b =>
      rw [cmpDirKeys_cons_cons, ih]
      rfl

/-- Comparing a file with a directory is comparing the file's key with the output key. -/
theorem cmpFileDir_eq (file dir : Str) : cmpFileDir file dir = cmpList file (dirOutput dir) := by
  rw [cmpFileDir, cmpDirOutput_eq, cmpList_swap]

/-- The prefix test on the output key, without building it. -/
theorem dirOutputStartsWith_iff (dir pre : Str) :
    dirOutputStartsWith dir pre = true ↔ pre <+: dirOutput dir := by
  unfold dirOutputStartsWith
  split
  · rename_i hle
    rw [startsWith_iff, dirOutput]
    exact ⟨fun h => h.trans (List.prefix_append _ _),
      fun h => List.prefix_of_prefix_length_le h (List.prefix_append _ _) hle⟩
  · split
    · rename_i hlen
      have hlen' : pre.length = (dirOutput dir).length := by simpa [dirOutput] using hlen
      rw [Bool.and_eq_true, startsWith_iff, beq_iff_eq]
      constructor
      · intro h
        obtain ⟨⟨t, rfl⟩, hlast⟩ := h
        obtain ⟨b, rfl⟩ : ∃ b, t = [b] := List.length_eq_one_iff.mp (by simpa using hlen)
        have hb : b = slash := by simpa using hlast
        rw [hb]
        exact List.prefix_rfl
      · intro h
        have heq : pre = dirOutput dir := h.eq_of_length hlen'
        subst heq
        exact ⟨List.prefix_append _ _, by simp [dirOutput]⟩
    · rename_i hgt hne
      refine ⟨fun h => by contradiction, fun h => ?_⟩
      have hle := h.length_le
      simp only [dirOutput, List.length_append, List.length_singleton] at hle
      omega

/-- In an array sorted by key the files below a bound come first. -/
theorem partitioned_files {files : List ListEntry} (hfiles : files.Pairwise fun a b => a.key ≤ b.key)
    (bound : Str) : Partitioned (fun f : ListEntry => decide (f.key < bound)) files ∧
      Partitioned (fun f : ListEntry => decide (f.key ≤ bound)) files := by
  have hlt : ∀ f : ListEntry, decide (f.key < bound) = true ↔ f.key < bound := fun _ =>
    decide_eq_true_iff
  have hle : ∀ f : ListEntry, decide (f.key ≤ bound) = true ↔ f.key ≤ bound := fun _ =>
    decide_eq_true_iff
  exact ⟨partitioned_of_key hlt (fun _ _ => lt_of_le_of_lt) hfiles,
    partitioned_of_key hle (fun _ _ => le_trans) hfiles⟩

/-- In an array sorted by output key the directories below a bound come first. -/
theorem partitioned_dirs {dirs : List Str} (hdirs : dirs.Pairwise fun a b => dirOutput a ≤ dirOutput b)
    (bound : Str) : Partitioned (fun d => cmpDirOutput d bound == .lt) dirs ∧
      Partitioned (fun d => cmpDirOutput d bound != .gt) dirs := by
  have hlt : ∀ d, (cmpDirOutput d bound == .lt) = true ↔ dirOutput d < bound := fun d => by
    rw [beq_iff_eq, cmpDirOutput_eq, cmpList_eq_lt_iff]
  have hle : ∀ d, (cmpDirOutput d bound != .gt) = true ↔ dirOutput d ≤ bound := fun _ =>
    cmpDirOutput_ne_gt_iff
  exact ⟨partitioned_of_key hlt (fun _ _ => lt_of_le_of_lt) hdirs,
    partitioned_of_key hle (fun _ _ => le_trans) hdirs⟩

/-! ## The listing of one directory -/

/-- `DirListing`: the direct children of one directory, split by kind, the files in key order and
the directories in the order of their output keys. -/
structure DirListing where
  files : List ListEntry
  dirs : List Str
  files_sorted : files.Pairwise fun a b => a.key ≤ b.key
  dirs_sorted : dirs.Pairwise fun a b => dirOutput a ≤ dirOutput b
  deriving DecidableEq

/-- `DirListing::default()`. -/
def DirListing.empty : DirListing := ⟨[], [], List.Pairwise.nil, List.Pairwise.nil⟩

/-- `files.sort_by(..)` and `dirs.sort_by(..)` of `listing_from_statuses`. -/
def DirListing.sort (files : List ListEntry) (dirs : List Str) : DirListing where
  files := files.mergeSort fun a b => decide (a.key ≤ b.key)
  dirs := dirs.mergeSort fun a b => cmpDirKeys a b != .gt
  files_sorted := pairwise_mergeSort_key (fun _ _ => decide_eq_true_iff) files
  dirs_sorted := by
    refine pairwise_mergeSort_key (fun a b => ?_) dirs
    rw [bne_iff_ne, ne_eq, cmpDirKeys_eq, cmpList_eq_gt_iff, not_lt]

end HdfsS3Gateway
