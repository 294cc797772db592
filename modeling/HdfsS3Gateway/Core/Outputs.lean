import HdfsS3Gateway.Core.Pagination
import Mathlib.Data.List.Dedup

/-!
# The outputs of a listing and the pages cut from them

A listing has outputs: the files that are listed themselves, and the common prefixes that stand for
groups of keys. What they are depends on the files, the directories, the prefix and the delimiter
only. `paginate` returns the first of them after the marker, in the order of their keys; `Page.cut`
says what that page is, so a statement about two pages reduces to one about the members of two
sorted lists.
-/

namespace HdfsS3Gateway

open SortedSearch

/-! ## The first occurrence of a delimiter -/

/-- The search finds the first occurrence. -/
theorem findStr_eq_some {s pattern : Str} {i : ℕ} (h : findStr s pattern = some i) :
    (∃ b, s = s.take i ++ pattern ++ b) ∧ i ≤ s.length ∧
      ∀ a b, s = a ++ pattern ++ b → i ≤ a.length := by
  induction s generalizing i with
  | nil =>
    rw [findStr] at h
    split at h
    · rename_i hp
      obtain rfl := Option.some.inj h
      exact ⟨(startsWith_iff _ _).mp hp |>.imp fun b hb => by simp [hb], Nat.le_refl _,
        fun _ _ _ => Nat.zero_le _⟩
    · contradiction
  | cons x s ih =>
    rw [findStr] at h
    split at h
    · rename_i hp
      obtain rfl := Option.some.inj h
      obtain ⟨b, hb⟩ := (startsWith_iff _ _).mp hp
      exact ⟨⟨b, by simp [hb]⟩, Nat.zero_le _, fun _ _ _ => Nat.zero_le _⟩
    · rename_i hp
      obtain ⟨j, hj, rfl⟩ := Option.map_eq_some_iff.mp h
      obtain ⟨⟨b, hb⟩, hle, hfirst⟩ := ih hj
      refine ⟨⟨b, ?_⟩, Nat.succ_le_succ hle, fun a c hac => ?_⟩
      · rw [List.take_succ_cons, List.cons_append, List.cons_append, ← hb]
      · cases a with
        | nil => exact absurd ((startsWith_iff _ _).mpr ⟨c, hac.symm⟩) hp
        | cons y a => exact Nat.succ_le_succ (hfirst a c (List.cons.inj hac).2)

/-- The search fails only if there is no occurrence. -/
theorem findStr_eq_none {s pattern : Str} (h : findStr s pattern = none) : ¬ pattern <:+: s := by
  induction s with
  | nil =>
    rw [findStr] at h
    split at h
    · contradiction
    · rename_i hp
      rintro ⟨a, b, hab⟩
      refine hp ((startsWith_iff _ _).mpr ?_)
      have hnil : pattern = [] := by simp_all
      rw [hnil]
  | cons x s ih =>
    rw [findStr] at h
    split at h
    · contradiction
    · rename_i hp
      rw [Option.map_eq_none_iff] at h
      rw [List.infix_cons_iff]
      rintro (hpre | hin)
      · exact hp ((startsWith_iff _ _).mpr hpre)
      · exact ih h hin

/-- `p` is the part of the key that ends with the first delimiter after the prefix. -/
def GroupsAt (pre delim key p : Str) : Prop :=
  ∃ a b, key = pre ++ (a ++ delim ++ b) ∧ p = pre ++ (a ++ delim) ∧
    ∀ a' b', a ++ delim ++ b = a' ++ delim ++ b' → a.length ≤ a'.length

/-- Where the search finds the delimiter, the group ends after it. -/
theorem groupsAt_iff {pre delim rest p : Str} {i : ℕ} (h : findStr rest delim = some i) :
    GroupsAt pre delim (pre ++ rest) p ↔ p = pre ++ rest.take (i + delim.length) := by
  obtain ⟨⟨b, hb⟩, hle, hfirst⟩ := findStr_eq_some h
  have htake : rest.take (i + delim.length) = rest.take i ++ delim := by
    have hcut : ∀ a, rest = a ++ delim ++ b → a.length = i →
        rest.take (i + delim.length) = a ++ delim := by
      rintro a ha rfl
      rw [ha, ← List.length_append, List.take_left]
    exact hcut _ hb (by simp [Nat.min_eq_left hle])
  rw [htake]
  constructor
  · rintro ⟨a, c, hkey, rfl, hmin⟩
    have hrest := List.append_cancel_left hkey
    have hai : a.length = i := by
      refine Nat.le_antisymm ?_ (hfirst a c hrest)
      have hmin' := hmin (rest.take i) b (hrest ▸ hb)
      simpa [Nat.min_eq_left hle] using hmin'
    have ha : a = rest.take i := by
      rw [hrest, ← hai, List.append_assoc, List.take_left]
    rw [ha]
  · rintro rfl
    refine ⟨rest.take i, b, by rw [← hb], rfl, fun a c hac => ?_⟩
    rw [List.length_take, Nat.min_eq_left hle]
    exact hfirst a c (hb.trans hac)

/-- Without an occurrence there is no group. -/
theorem not_groupsAt {pre delim rest p : Str} (h : findStr rest delim = none) :
    ¬ GroupsAt pre delim (pre ++ rest) p := by
  rintro ⟨a, b, hkey, -, -⟩
  exact findStr_eq_none h ⟨a, b, (List.append_cancel_left hkey).symm⟩

/-- `collapse` computes the group of a matching key. -/
theorem collapse_eq_some_iff {pre delim rest p : Str} :
    collapse pre (some delim) (pre ++ rest) = some p ↔ GroupsAt pre delim (pre ++ rest) p := by
  simp only [collapse, List.drop_left]
  cases h : findStr rest delim with
  | none => simp [not_groupsAt h]
  | some i => simp [groupsAt_iff h, eq_comm]

/-- A matching key collapses to nothing exactly when the rest of it has no delimiter. -/
theorem collapse_eq_none_iff {pre delim rest : Str} :
    collapse pre (some delim) (pre ++ rest) = none ↔ ¬ delim <:+: rest := by
  simp only [collapse, List.drop_left, Option.map_eq_none_iff]
  refine ⟨findStr_eq_none, fun hno => ?_⟩
  by_contra hne
  obtain ⟨i, hi⟩ := Option.ne_none_iff_exists'.mp hne
  obtain ⟨⟨b, hb⟩, -⟩ := findStr_eq_some hi
  exact hno ⟨_, b, hb.symm⟩

/-- In an output key the first separator after the prefix is the one the search finds, or else the
last byte. -/
theorem findStr_append_slash (rest : Str) :
    findStr (rest ++ [slash]) [slash] = some ((findStr rest [slash]).getD rest.length) := by
  induction rest with
  | nil => rfl
  | cons x rest ih =>
    have hhead : ∀ s : Str, startsWith (x :: s) [slash] = (slash == x) := fun s => by
      simp [startsWith, List.isPrefixOf]
    rw [List.cons_append, findStr, findStr, hhead, hhead]
    split
    · rfl
    · simp only [ih]
      cases findStr rest [slash] <;> rfl

/-- The common prefix of a matching directory is the group of its output key. -/
theorem collapseDir_eq_iff {pre rest p : Str} :
    collapseDir pre (pre ++ rest) = p ↔ GroupsAt pre [slash] (dirOutput (pre ++ rest)) p := by
  have hout : dirOutput (pre ++ rest) = pre ++ (rest ++ [slash]) := by simp [dirOutput]
  rw [hout, groupsAt_iff (findStr_append_slash rest)]
  simp only [collapseDir, List.drop_left]
  cases h : findStr rest [slash] with
  | none => simp [hout, List.take_of_length_le, eq_comm]
  | some i =>
    obtain ⟨⟨b, hb⟩, -, -⟩ := findStr_eq_some h
    have hlen := congrArg List.length hb
    simp only [List.length_append, List.length_singleton, List.length_take] at hlen
    have hle : i + 1 ≤ rest.length := by omega
    simp [List.take_append_of_le_length hle, eq_comm]

/-! ## Outputs -/

/-- An output of a listing: a listed file, or a common prefix. -/
abbrev Output := ListEntry ⊕ Str

/-- The key that an output is ordered by. -/
def Output.key : Output → Str := Sum.elim ListEntry.key id

@[simp] theorem Output.key_inl (e : ListEntry) : Output.key (.inl e) = e.key := rfl

@[simp] theorem Output.key_inr (p : Str) : Output.key (.inr p) = p := rfl

/-- Outputs in the strict order of their keys. -/
def Ascending (outputs : List Output) : Prop :=
  outputs.Pairwise fun x y => Output.key x < Output.key y

/-- Ascending outputs are determined by their members. -/
theorem Ascending.ext {xs ys : List Output} (hx : Ascending xs) (hy : Ascending ys)
    (h : ∀ x, x ∈ xs ↔ x ∈ ys) : xs = ys :=
  haveI : Std.Irrefl fun x y : Output => Output.key x < Output.key y := ⟨fun _ => lt_irrefl _⟩
  haveI : Std.Antisymm fun x y : Output => Output.key x < Output.key y :=
    ⟨fun _ _ hxy hyx => absurd hyx (lt_asymm hxy)⟩
  List.Pairwise.eq_of_mem_iff hx hy (fun x => h x)

/-- Ascending outputs have different keys. -/
theorem Ascending.eq_of_key {outputs : List Output} (h : Ascending outputs) {x y : Output}
    (hx : x ∈ outputs) (hy : y ∈ outputs) (hkey : Output.key x = Output.key y) : x = y := by
  have hnodup : (outputs.map Output.key).Nodup := List.pairwise_map.mpr (h.imp ne_of_lt)
  exact List.inj_on_of_nodup_map hnodup hx hy hkey

/-- The files among ascending outputs are in the order of their keys. -/
theorem Ascending.files {outputs : List Output} (h : Ascending outputs) :
    (outputs.filterMap Sum.getLeft?).Pairwise fun a b : ListEntry => a.key < b.key := by
  rw [List.pairwise_filterMap]
  apply h.imp
  rintro (x | x) (y | y) hxy a ha b hb
  · obtain rfl := Option.some.inj ha
    obtain rfl := Option.some.inj hb
    exact hxy
  all_goals contradiction

/-- The common prefixes among ascending outputs are in order. -/
theorem Ascending.groups {outputs : List Output} (h : Ascending outputs) :
    (outputs.filterMap Sum.getRight?).Pairwise fun a b : Str => a < b := by
  rw [List.pairwise_filterMap]
  apply h.imp
  rintro (x | x) (y | y) hxy a ha b hb
  rotate_left 3
  · obtain rfl := Option.some.inj ha
    obtain rfl := Option.some.inj hb
    exact hxy
  all_goals contradiction

theorem mem_filterMap_getLeft? {outputs : List Output} {e : ListEntry} :
    e ∈ outputs.filterMap Sum.getLeft? ↔ .inl e ∈ outputs := by
  simp [List.mem_filterMap]

theorem mem_filterMap_getRight? {outputs : List Output} {p : Str} :
    p ∈ outputs.filterMap Sum.getRight? ↔ .inr p ∈ outputs := by
  simp [List.mem_filterMap]

/-- A list of two kinds of items is a permutation of those of the first kind and those of the
second. -/
theorem split_perm {α β : Type} (xs : List (α ⊕ β)) :
    ((xs.filterMap Sum.getLeft?).map Sum.inl ++ (xs.filterMap Sum.getRight?).map Sum.inr).Perm xs := by
  induction xs with
  | nil => exact List.Perm.refl _
  | cons x xs ih =>
    cases x with
    | inl a => exact ih.cons _
    | inr b => exact List.perm_middle.trans (ih.cons _)

/-- The items of each kind in a list of both. -/
theorem filterMap_kinds {α β : Type} (xs : List α) (ys : List β) :
    (xs.map Sum.inl ++ ys.map Sum.inr).filterMap Sum.getLeft? = xs ∧
      (xs.map Sum.inl ++ ys.map Sum.inr).filterMap Sum.getRight? = ys := by
  have hright : ∀ ys : List β, (ys.map (Sum.inr (α := α))).filterMap Sum.getLeft? = [] ∧
      (ys.map (Sum.inr (α := α))).filterMap Sum.getRight? = ys := by
    intro ys
    induction ys with
    | nil => exact ⟨rfl, rfl⟩
    | cons y ys ih => exact ⟨ih.1, congrArg (List.cons y) ih.2⟩
  induction xs with
  | nil => exact hright ys
  | cons x xs ih => exact ⟨congrArg (List.cons x) ih.1, ih.2⟩

/-- The last of ascending outputs has the greatest key. -/
theorem Ascending.getLast?_key_iff {outputs : List Output} (h : Ascending outputs) {t : Str} :
    outputs.getLast?.map Output.key = some t ↔
      t ∈ outputs.map Output.key ∧ ∀ y ∈ outputs, Output.key y ≤ t := by
  rcases List.eq_nil_or_concat outputs with rfl | ⟨init, last, rfl⟩
  · simp
  · have hbelow : ∀ y ∈ init, Output.key y < Output.key last := fun y hy =>
      (List.pairwise_append.mp (List.concat_eq_append ▸ h)).2.2 y hy last (List.mem_singleton_self _)
    simp only [List.concat_eq_append, List.getLast?_concat, Option.map_some, Option.some.injEq]
    constructor
    · rintro rfl
      refine ⟨by simp, fun y hy => ?_⟩
      rcases List.mem_append.mp hy with hy | hy
      · exact le_of_lt (hbelow y hy)
      · rw [List.mem_singleton.mp hy]
    · rintro ⟨hmem, hmax⟩
      obtain ⟨x, hx, rfl⟩ := List.mem_map.mp hmem
      rcases List.mem_append.mp hx with hx | hx
      · exact absurd (hbelow x hx) (not_lt.mpr (hmax last (by simp)))
      · rw [List.mem_singleton.mp hx]

/-- The page of the first `n` outputs. -/
def Page.cut (outputs : List Output) (n : ℕ) : Page where
  contents := (outputs.take n).filterMap Sum.getLeft?
  commonPrefixes := (outputs.take n).filterMap Sum.getRight?
  isTruncated := decide (n < outputs.length)
  nextToken := if n < outputs.length then (outputs.take n).getLast?.map Output.key else none

/-- The page of outputs that are all files. -/
theorem Page.cut_files (entries : List ListEntry) (n : ℕ) :
    Page.cut (entries.map Sum.inl) n = {
      contents := entries.take n
      commonPrefixes := []
      isTruncated := decide (n < entries.length)
      nextToken := if n < entries.length then (entries.take n).getLast?.map ListEntry.key else none } := by
  obtain ⟨hleft, hright⟩ := filterMap_kinds (entries.take n) ([] : List Str)
  rw [List.map_nil, List.append_nil] at hleft hright
  rw [Page.cut, ← List.map_take, hleft, hright, List.length_map, List.getLast?_map, Option.map_map]
  rfl

/-- What the files and directories put out: a matching file whose rest has no delimiter, the group
of any other matching file, and, for `/`, the group of a matching directory. -/
def IsOutput (files : List ListEntry) (dirs : List Str) (pre : Str) (delimiter : Option Str) :
    Output → Prop
  | .inl e => e ∈ files ∧ pre <+: e.key ∧
      ∀ delim, delimiter = some delim → delim ≠ [] → ¬ delim <:+: e.key.drop pre.length
  | .inr p =>
      (∃ e ∈ files, ∃ delim, delimiter = some delim ∧ delim ≠ [] ∧ GroupsAt pre delim e.key p) ∨
      (delimiter = some [slash] ∧ ∃ dir ∈ dirs, pre <+: dir ∧ GroupsAt pre [slash] (dirOutput dir) p)

/-- A file that is listed is no group: the rest of a group has a delimiter. -/
theorem IsOutput.disjoint {files : List ListEntry} {dirs : List Str} {pre : Str}
    {delimiter : Option Str} {e : ListEntry} {p : Str}
    (he : IsOutput files dirs pre delimiter (.inl e))
    (hp : IsOutput files dirs pre delimiter (.inr p)) : e.key ≠ p := by
  have hgroup : ∀ delim key, delimiter = some delim → delim ≠ [] → GroupsAt pre delim key p →
      e.key ≠ p := by
    rintro delim key hdelim hne ⟨a, b, -, rfl, -⟩ hkey
    apply he.2.2 delim hdelim hne
    rw [hkey, List.drop_left]
    exact ⟨a, [], by simp⟩
  rcases hp with ⟨_, -, delim, hdelim, hne, h⟩ | ⟨hdelim, dir, -, -, h⟩
  · exact hgroup delim _ hdelim hne h
  · exact hgroup [slash] _ hdelim (List.cons_ne_nil _ _) h

/-! ## The general paginator -/

/-- The loop keeps the files that do not collapse and collects the groups of the others. -/
theorem listToContentsLoop_eq (pre : Str) (delimiter : Option Str) (entries contents : List ListEntry)
    (common : CommonPrefixSet) :
    (listToContentsLoop pre delimiter entries contents common).1 =
        contents ++ entries.filter (fun e =>
          startsWith e.key pre && (collapse pre delimiter e.key).isNone) ∧
      ∀ p, p ∈ (listToContentsLoop pre delimiter entries contents common).2.prefixes ↔
        p ∈ common.prefixes ∨
          ∃ e ∈ entries, pre <+: e.key ∧ collapse pre delimiter e.key = some p := by
  induction entries generalizing contents common with
  | nil => simp [listToContentsLoop]
  | cons e entries ih =>
    rw [listToContentsLoop]
    split
    · rename_i hskip
      have hno : ¬ pre <+: e.key := fun hp => by simp [(startsWith_iff _ _).mpr hp] at hskip
      obtain ⟨h1, h2⟩ := ih contents common
      refine ⟨by rw [h1]; simp [startsWith, hno], fun p => by rw [h2]; simp [hno]⟩
    · rename_i hmatch
      have hyes : pre <+: e.key := by simpa using hmatch
      split
      · rename_i group hgroup
        obtain ⟨h1, h2⟩ := ih contents (common.insert group)
        refine ⟨by rw [h1]; simp [hgroup], fun p => ?_⟩
        rw [h2]
        simp only [CommonPrefixSet.insert, Finset.mem_insert, List.mem_cons, exists_eq_or_imp, hyes,
          hgroup, Option.some.injEq, true_and]
        rw [eq_comm, or_assoc, or_left_comm]
      · rename_i hgroup
        obtain ⟨h1, h2⟩ := ih (contents ++ [e]) common
        refine ⟨by rw [h1]; simp [startsWith, hgroup, hyes], fun p => ?_⟩
        rw [h2]
        simp [hgroup]

/-- A matching key collapses to its group for a nonempty delimiter. -/
theorem collapse_filter_eq_some_iff {pre key p : Str} {delimiter : Option Str} (hkey : pre <+: key) :
    collapse pre (delimiter.filter fun d => !d.isEmpty) key = some p ↔
      ∃ delim, delimiter = some delim ∧ delim ≠ [] ∧ GroupsAt pre delim key p := by
  obtain ⟨rest, rfl⟩ := hkey
  cases delimiter with
  | none => simp [collapse]
  | some delim =>
    by_cases hne : delim = []
    · simp [hne, Option.filter, collapse]
    · simp [hne, Option.filter, collapse_eq_some_iff]

/-- A matching key does not collapse if its rest has no nonempty delimiter. -/
theorem collapse_filter_eq_none_iff {pre key : Str} {delimiter : Option Str} (hkey : pre <+: key) :
    collapse pre (delimiter.filter fun d => !d.isEmpty) key = none ↔
      ∀ delim, delimiter = some delim → delim ≠ [] → ¬ delim <:+: key.drop pre.length := by
  obtain ⟨rest, rfl⟩ := hkey
  cases delimiter with
  | none => simp [collapse]
  | some delim =>
    by_cases hne : delim = []
    · simp [hne, Option.filter, collapse]
    · simp [hne, Option.filter, collapse_eq_none_iff]

/-- `list_to_contents` computes the outputs of the files. -/
theorem mem_listToContents (files : List ListEntry) (pre : Str) (delimiter : Option Str) :
    (∀ e, e ∈ (listToContents files pre delimiter).1 ↔ IsOutput files [] pre delimiter (.inl e)) ∧
      ∀ p, p ∈ (listToContents files pre delimiter).2.prefixes ↔
        IsOutput files [] pre delimiter (.inr p) := by
  obtain ⟨hcontents, hcommon⟩ := listToContentsLoop_eq pre
    (delimiter.filter fun d => !d.isEmpty) files [] {}
  constructor
  · intro e
    rw [listToContents, hcontents, List.nil_append, List.mem_filter, Bool.and_eq_true, startsWith_iff,
      Option.isNone_iff_eq_none]
    apply and_congr_right'
    exact and_congr_right collapse_filter_eq_none_iff
  · intro p
    rw [listToContents, hcommon]
    constructor
    · rintro (h | ⟨e, he, hkey, hgroup⟩)
      · simp at h
      · exact Or.inl ⟨e, he, (collapse_filter_eq_some_iff hkey).mp hgroup⟩
    · rintro (⟨e, he, delim, hdelim, hne, hgroup⟩ | ⟨-, dir, hdir, -⟩)
      · have hkey : pre <+: e.key := by
          obtain ⟨a, b, h, -⟩ := hgroup
          exact ⟨_, h.symm⟩
        exact Or.inr ⟨e, he, hkey, (collapse_filter_eq_some_iff hkey).mpr ⟨delim, hdelim, hne, hgroup⟩⟩
      · simp at hdir

/-- The common prefixes before the marker is applied: sorted, without repetition. -/
theorem sortDedup_spec (l : List Str) :
    ((l.mergeSort fun a b => decide (a ≤ b)).destutter (· ≠ ·)).Pairwise (· < ·) ∧
      ∀ p, p ∈ (l.mergeSort fun a b => decide (a ≤ b)).destutter (· ≠ ·) ↔ p ∈ l := by
  have hsorted : (l.mergeSort fun a b => decide (a ≤ b)).Pairwise (· ≤ ·) :=
    @pairwise_mergeSort_key _ _ _ _ id (fun _ _ => decide_eq_true_iff) l
  have hdedup : (l.mergeSort fun a b => decide (a ≤ b)).destutter (· ≠ ·) =
      (l.mergeSort fun a b => decide (a ≤ b)).dedup := hsorted.destutter_eq_dedup
  rw [hdedup]
  constructor
  · have hle := hsorted.sublist (List.dedup_sublist _)
    exact (hle.and (List.nodup_dedup _)).imp fun h => lt_of_le_of_ne h.1 h.2
  · intro p
    rw [List.mem_dedup, List.mem_mergeSort]

/-- The first outputs are those with the first keys. -/
theorem Ascending.mem_take_iff {outputs : List Output} (h : Ascending outputs) (n : ℕ) (x : Output) :
    x ∈ outputs.take n ↔ x ∈ outputs ∧ Output.key x ∈ (outputs.map Output.key).take n := by
  rw [← List.map_take]
  constructor
  · exact fun hx => ⟨List.mem_of_mem_take hx, List.mem_map_of_mem hx⟩
  · rintro ⟨hx, hkey⟩
    obtain ⟨y, hy, hxy⟩ := List.mem_map.mp hkey
    rwa [← h.eq_of_key (List.mem_of_mem_take hy) hx hxy]

/-- Files and common prefixes without a common key can be merged in the order of their keys. -/
theorem exists_ascending {contents : List ListEntry} {common : List Str}
    (hcontents : contents.Pairwise fun a b => a.key < b.key) (hcommon : common.Pairwise (· < ·))
    (hdisj : ∀ e ∈ contents, ∀ p ∈ common, e.key ≠ p) :
    ∃ outputs : List Output, Ascending outputs ∧
      (∀ x, x ∈ outputs ↔ x ∈ contents.map Sum.inl ++ common.map Sum.inr) ∧
      (contents.map ListEntry.key ++ common).mergeSort (fun a b => decide (a ≤ b)) =
        outputs.map Output.key := by
  let all : List Output := contents.map Sum.inl ++ common.map Sum.inr
  let outputs := all.mergeSort fun x y => decide (Output.key x ≤ Output.key y)
  have hperm : outputs.Perm all := List.mergeSort_perm _ _
  have hkeys : all.map Output.key = contents.map ListEntry.key ++ common := by
    simp [all, Function.comp_def]
  have hnodup : (contents.map ListEntry.key ++ common).Nodup := by
    rw [List.nodup_append]
    refine ⟨List.pairwise_map.mpr (hcontents.imp ne_of_lt), hcommon.imp ne_of_lt, ?_⟩
    intro k hk p hp
    obtain ⟨e, he, rfl⟩ := List.mem_map.mp hk
    exact hdisj e he p hp
  have hsorted : outputs.Pairwise fun x y => Output.key x ≤ Output.key y :=
    pairwise_mergeSort_key (fun _ _ => decide_eq_true_iff) all
  have hasc : Ascending outputs := by
    have hne : (outputs.map Output.key).Nodup :=
      ((hperm.map Output.key).nodup_iff).mpr (hkeys ▸ hnodup)
    exact (hsorted.and (List.pairwise_map.mp hne)).imp fun h => lt_of_le_of_ne h.1 h.2
  have hkeysSorted : ((contents.map ListEntry.key ++ common).mergeSort
      fun a b => decide (a ≤ b)).Pairwise (· ≤ ·) :=
    @pairwise_mergeSort_key _ _ _ _ id (fun _ _ => decide_eq_true_iff) _
  refine ⟨outputs, hasc, fun x => hperm.mem_iff, ?_⟩
  apply List.Perm.eq_of_pairwise (fun _ _ _ _ => le_antisymm) hkeysSorted
    (List.pairwise_map.mpr hsorted)
  exact (List.mergeSort_perm _ _).trans (hkeys ▸ (hperm.map Output.key).symm)

/-- Cutting a page by its keys: sort the keys of all outputs, take the first ones, and select the
files and common prefixes whose keys are among them. -/
theorem Page.cut_eq_select {contents : List ListEntry} {common : List Str}
    (hcontents : contents.Pairwise fun a b => a.key < b.key) (hcommon : common.Pairwise (· < ·))
    (hdisj : ∀ e ∈ contents, ∀ p ∈ common, e.key ≠ p) (n : ℕ) :
    ∃ outputs : List Output, Ascending outputs ∧
      (∀ x, x ∈ outputs ↔ x ∈ contents.map Sum.inl ++ common.map Sum.inr) ∧
      (contents.map ListEntry.key ++ common).mergeSort (fun a b => decide (a ≤ b)) =
        outputs.map Output.key ∧
      contents.filter (fun e => ((outputs.map Output.key).take n).contains e.key) =
        (outputs.take n).filterMap Sum.getLeft? ∧
      common.filter (fun p => ((outputs.map Output.key).take n).contains p) =
        (outputs.take n).filterMap Sum.getRight? := by
  obtain ⟨outputs, hasc, hmem, hkeys⟩ := exists_ascending hcontents hcommon hdisj
  have htake : Ascending (outputs.take n) := hasc.sublist (List.take_sublist _ _)
  refine ⟨outputs, hasc, hmem, hkeys, ?_, ?_⟩
  · have : Std.Irrefl fun a b : ListEntry => a.key < b.key := ⟨fun _ => lt_irrefl _⟩
    have : Std.Antisymm fun a b : ListEntry => a.key < b.key :=
      ⟨fun _ _ hab hba => absurd hba (lt_asymm hab)⟩
    apply List.Pairwise.eq_of_mem_iff (hcontents.sublist List.filter_sublist) htake.files
    intro e
    rw [mem_filterMap_getLeft?, hasc.mem_take_iff, hmem, List.mem_filter, List.contains_iff_mem]
    simp
  · apply List.Pairwise.eq_of_mem_iff (hcommon.sublist List.filter_sublist) htake.groups
    intro p
    rw [mem_filterMap_getRight?, hasc.mem_take_iff, hmem, List.mem_filter, List.contains_iff_mem]
    simp

/-- What lies above the marker. -/
def retain {α : Type} (key : α → Str) (marker : Option Str) (xs : List α) : List α :=
  marker.elim xs fun m => xs.filter fun x => decide (m < key x)

/-- The marker keeps the order. -/
theorem retain_sorted {α : Type} {key : α → Str} (marker : Option Str) {xs : List α}
    (hxs : xs.Pairwise fun a b => key a < key b) :
    (retain key marker xs).Pairwise fun a b => key a < key b := by
  cases marker with
  | none => exact hxs
  | some m => exact hxs.sublist List.filter_sublist

/-- The marker keeps exactly what lies above it. -/
theorem mem_retain {α : Type} {key : α → Str} {marker : Option Str} {xs : List α} {x : α} :
    x ∈ retain key marker xs ↔ x ∈ xs ∧ ∀ m, marker = some m → m < key x := by
  cases marker with
  | none => simp [retain]
  | some m => simp [retain, List.mem_filter]

/-- The contents before the marker is applied: the listed files in the order of their keys. -/
theorem sortContents_spec {files : List ListEntry} (hkeys : (files.map ListEntry.key).Nodup)
    (pre : Str) (delimiter : Option Str) :
    ((listToContents files pre delimiter).1.mergeSort fun a b =>
        decide (a.key ≤ b.key)).Pairwise (fun a b => a.key < b.key) ∧
      ∀ e, (e ∈ (listToContents files pre delimiter).1.mergeSort fun a b => decide (a.key ≤ b.key)) ↔
        IsOutput files [] pre delimiter (.inl e) := by
  have hperm := List.mergeSort_perm (listToContents files pre delimiter).1
    fun a b : ListEntry => decide (a.key ≤ b.key)
  have hnodup : ((listToContents files pre delimiter).1.map ListEntry.key).Nodup := by
    obtain ⟨hcontents, -⟩ := listToContentsLoop_eq pre
      (delimiter.filter fun d => !d.isEmpty) files [] {}
    rw [listToContents, hcontents, List.nil_append]
    exact hkeys.sublist (List.filter_sublist.map _)
  have hne := List.pairwise_map.mp (((hperm.map ListEntry.key).nodup_iff).mpr hnodup)
  have hsorted : ((listToContents files pre delimiter).1.mergeSort fun a b =>
      decide (a.key ≤ b.key)).Pairwise fun a b => a.key ≤ b.key :=
    pairwise_mergeSort_key (fun _ _ => decide_eq_true_iff) _
  constructor
  · exact (hsorted.and hne).imp fun h => lt_of_le_of_ne h.1 h.2
  · intro e
    rw [List.mem_mergeSort]
    exact (mem_listToContents files pre delimiter).1 e

/-- The end of the paginator: cut the page of contents and common prefixes in order. -/
def Page.select (contents : List ListEntry) (common : List Str) (n : ℕ) : Page :=
  let allKeys := (contents.map ListEntry.key ++ common).mergeSort fun a b => decide (a ≤ b)
  let take := min n allKeys.length
  let page := allKeys.take take
  let isTruncated := decide (take < allKeys.length)
  { contents := contents.filter fun e => page.contains e.key
    commonPrefixes := common.filter fun p => page.contains p
    isTruncated
    nextToken := if isTruncated then page.getLast? else none }

/-- The general paginator prepares its contents and common prefixes, and cuts the page. -/
theorem paginate_eq_select (files : List ListEntry) (dirs : List Str) (pre : Str)
    (delimiter marker : Option Str) {maxKeys : ℕ} (hmax : maxKeys ≠ 0) :
    paginate files dirs pre delimiter marker maxKeys =
      Page.select
        (retain ListEntry.key marker
          ((listToContents files pre delimiter).1.mergeSort fun a b => decide (a.key ≤ b.key)))
        (retain id marker
          ((((listToContents files pre delimiter).2.intoVec ++
            if delimiter = some [slash] then (dirs.filter (startsWith · pre)).map (collapseDir pre)
            else []).mergeSort fun a b => decide (a ≤ b)).destutter (· ≠ ·))) maxKeys := by
  unfold paginate
  rw [if_neg hmax]
  cases marker <;> rfl

/-- The page selected from contents and common prefixes in order is the cut of their union. -/
theorem Page.exists_cut_select {contents : List ListEntry} {common : List Str}
    (hcontents : contents.Pairwise fun a b => a.key < b.key) (hcommon : common.Pairwise (· < ·))
    (hdisj : ∀ e ∈ contents, ∀ p ∈ common, e.key ≠ p) (n : ℕ) :
    ∃ outputs : List Output, Ascending outputs ∧
      (∀ x, x ∈ outputs ↔ x ∈ contents.map Sum.inl ++ common.map Sum.inr) ∧
      Page.select contents common n = Page.cut outputs n := by
  obtain ⟨outputs, hasc, hmem, hkeys, hfiles, hgroups⟩ :=
    Page.cut_eq_select hcontents hcommon hdisj n
  have htake : (outputs.map Output.key).take (min n (outputs.map Output.key).length) =
      (outputs.map Output.key).take n := List.take_eq_take_iff.mpr (by simp)
  have htrunc : decide (min n (outputs.map Output.key).length < (outputs.map Output.key).length) =
      decide (n < outputs.length) := by
    rw [List.length_map]
    exact decide_eq_decide.mpr (by omega)
  refine ⟨outputs, hasc, hmem, ?_⟩
  simp only [Page.select, hkeys, htake, htrunc, hfiles, hgroups, Page.cut, decide_eq_true_eq]
  congr 2
  rw [← List.map_take, List.getLast?_map]

/-- The common prefixes before the marker is applied are the groups among the outputs. -/
theorem mem_commonVec (files : List ListEntry) (dirs : List Str) (pre : Str)
    (delimiter : Option Str) (p : Str) :
    p ∈ (listToContents files pre delimiter).2.intoVec ++
      (if delimiter = some [slash] then (dirs.filter (startsWith · pre)).map (collapseDir pre)
        else []) ↔ IsOutput files dirs pre delimiter (.inr p) := by
  have hdirs : p ∈ (if delimiter = some [slash] then
        (dirs.filter (startsWith · pre)).map (collapseDir pre) else []) ↔
      delimiter = some [slash] ∧
        ∃ dir ∈ dirs, pre <+: dir ∧ GroupsAt pre [slash] (dirOutput dir) p := by
    split
    · rename_i hdelim
      simp only [List.mem_map, List.mem_filter, startsWith_iff, hdelim, true_and, and_assoc]
      apply exists_congr
      intro dir
      apply and_congr_right'
      apply and_congr_right
      rintro ⟨rest, rfl⟩
      exact collapseDir_eq_iff
    · rename_i hdelim
      simp [hdelim]
  rw [List.mem_append, CommonPrefixSet.intoVec, Finset.mem_sort,
    (mem_listToContents files pre delimiter).2, hdirs]
  simp [IsOutput]

/-- The general paginator returns the first outputs after the marker. -/
theorem exists_cut_paginate {files : List ListEntry} (hkeys : (files.map ListEntry.key).Nodup)
    (dirs : List Str) (pre : Str) (delimiter marker : Option Str) {maxKeys : ℕ} (hmax : maxKeys ≠ 0) :
    ∃ outputs, Ascending outputs ∧
      (∀ x, x ∈ outputs ↔ IsOutput files dirs pre delimiter x ∧
        ∀ m, marker = some m → m < Output.key x) ∧
      paginate files dirs pre delimiter marker maxKeys = Page.cut outputs maxKeys := by
  obtain ⟨hcontents, hlisted⟩ := sortContents_spec hkeys pre delimiter
  obtain ⟨hcommon, hgroups⟩ := sortDedup_spec ((listToContents files pre delimiter).2.intoVec ++
    if delimiter = some [slash] then (dirs.filter (startsWith · pre)).map (collapseDir pre) else [])
  have hfile : ∀ e, _ ↔ IsOutput files dirs pre delimiter (.inl e) := hlisted
  have hgroup : ∀ p, _ ↔ IsOutput files dirs pre delimiter (.inr p) := fun p =>
    (hgroups p).trans (mem_commonVec files dirs pre delimiter p)
  obtain ⟨outputs, hasc, hmem, hcut⟩ := Page.exists_cut_select
    (retain_sorted marker hcontents) (@retain_sorted _ id marker _ hcommon)
    (fun e he p hp => IsOutput.disjoint ((hfile e).mp (mem_retain.mp he).1)
      ((hgroup p).mp (mem_retain.mp hp).1)) maxKeys
  refine ⟨outputs, hasc, fun x => ?_, (paginate_eq_select files dirs pre delimiter marker hmax).trans
    hcut⟩
  rw [hmem]
  cases x with
  | inl e =>
    simp only [List.mem_append, List.mem_map, Sum.inl.injEq, exists_eq_right, reduceCtorEq,
      and_false, exists_false, or_false, mem_retain, Output.key_inl]
    exact and_congr_left' (hfile e)
  | inr p =>
    simp only [List.mem_append, List.mem_map, Sum.inr.injEq, exists_eq_right, reduceCtorEq,
      and_false, exists_false, false_or, mem_retain, Output.key_inr, id_eq]
    exact and_congr_left' (hgroup p)

/-- The general paginator cuts the outputs after the marker. -/
theorem paginate_eq_cut {files : List ListEntry} (hkeys : (files.map ListEntry.key).Nodup)
    {dirs : List Str} {pre : Str} {delimiter marker : Option Str} {outputs : List Output}
    (hasc : Ascending outputs)
    (hmem : ∀ x, (∀ m, marker = some m → m < Output.key x) →
      (IsOutput files dirs pre delimiter x ↔ x ∈ outputs)) {maxKeys : ℕ} (hmax : maxKeys ≠ 0) :
    paginate files dirs pre delimiter marker maxKeys =
      Page.cut (retain Output.key marker outputs) maxKeys := by
  obtain ⟨found, hfound, hiff, hpage⟩ := exists_cut_paginate hkeys dirs pre delimiter marker hmax
  have hsame : found = retain Output.key marker outputs := by
    apply hfound.ext (retain_sorted marker hasc)
    intro x
    rw [hiff, mem_retain]
    exact and_congr_left (hmem x)
  rw [hpage, hsame]

/-- The page of any listing: its contents and common prefixes are the files and the groups among the
first outputs after the marker, no key is in both, and it is truncated, with the greatest key on it
as the token, exactly when there are more outputs. -/
theorem paginate_groups {files : List ListEntry} (hkeys : (files.map ListEntry.key).Nodup)
    (dirs : List Str) (pre : Str) (delimiter marker : Option Str) {maxKeys : ℕ}
    (hmax : 1 ≤ maxKeys) :
    let page := paginate files dirs pre delimiter marker maxKeys
    ∃ outputs : List Output, outputs.Pairwise (fun x y => Output.key x < Output.key y) ∧
      (∀ x, x ∈ outputs ↔ IsOutput files dirs pre delimiter x ∧
        ∀ m, marker = some m → m < Output.key x) ∧
      page.contents = (outputs.take maxKeys).filterMap Sum.getLeft? ∧
      page.commonPrefixes = (outputs.take maxKeys).filterMap Sum.getRight? ∧
      (∀ e ∈ page.contents, e.key ∉ page.commonPrefixes) ∧
      (page.isTruncated = true ↔ maxKeys < outputs.length) ∧
      ∀ t, page.nextToken = some t ↔ page.isTruncated = true ∧
        t ∈ (outputs.take maxKeys).map Output.key ∧
        ∀ y ∈ outputs.take maxKeys, Output.key y ≤ t := by
  intro page
  obtain ⟨outputs, hasc, hmem, hpage⟩ :=
    exists_cut_paginate hkeys dirs pre delimiter marker (Nat.ne_of_gt hmax)
  have htake : Ascending (outputs.take maxKeys) := hasc.sublist (List.take_sublist _ _)
  have hcut : page = Page.cut outputs maxKeys := hpage
  refine ⟨outputs, hasc, hmem, by rw [hcut, Page.cut], by rw [hcut, Page.cut], ?_,
    by simp [hcut, Page.cut], fun t => ?_⟩
  · intro e he hp
    rw [hcut] at he hp
    have hfile := List.mem_of_mem_take (mem_filterMap_getLeft?.mp he)
    have hgroup := List.mem_of_mem_take (mem_filterMap_getRight?.mp hp)
    exact IsOutput.disjoint ((hmem _).mp hfile).1 ((hmem _).mp hgroup).1 rfl
  · rw [hcut, Page.cut, ← htake.getLast?_key_iff]
    by_cases hmore : maxKeys < outputs.length <;> simp [hmore]

/-- The keys `a/x` and `b` in any order, one page of one output. -/
theorem paginate_groups_two :
    let files : List ListEntry := [⟨[0x62], 1, 0⟩, ⟨[0x61, 0x2F, 0x78], 2, 0⟩]
    let page := paginate files [] [] (some [slash]) none 1
    ∃ outputs : List Output, outputs.Pairwise (fun x y => Output.key x < Output.key y) ∧
      (∀ x, x ∈ outputs ↔ IsOutput files [] [] (some [slash]) x ∧
        ∀ m, none = some m → m < Output.key x) ∧
      page.contents = (outputs.take 1).filterMap Sum.getLeft? ∧
      page.commonPrefixes = (outputs.take 1).filterMap Sum.getRight? ∧
      (∀ e ∈ page.contents, e.key ∉ page.commonPrefixes) ∧
      (page.isTruncated = true ↔ 1 < outputs.length) ∧
      ∀ t, page.nextToken = some t ↔ page.isTruncated = true ∧
        t ∈ (outputs.take 1).map Output.key ∧ ∀ y ∈ outputs.take 1, Output.key y ≤ t :=
  paginate_groups (by decide) [] [] (some [slash]) none (Nat.le_refl 1)

end HdfsS3Gateway
