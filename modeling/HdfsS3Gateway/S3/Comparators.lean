import HdfsS3Gateway.S3.Frontier

/-!
# The order of the merge

The comparators take slices and single bytes instead of building output keys. Here every slice and
every index is checked, as the source checks it at run time, and no check fails: each comparator is
the byte order on output keys. So is the order of cursors, files and directories mixed, and so are
the orders in which the arrays are sorted and searched.
-/

namespace HdfsS3Gateway

open Lexicographic SortedSearch

/-! ## Checked slices and indices -/

/-- `s[..n]`, which is in bounds up to the length. -/
def slicePrefix (s : Str) (n : ℕ) : Option Str := if n ≤ s.length then some (s.take n) else none

theorem slicePrefix_of_le {s : Str} {n : ℕ} (h : n ≤ s.length) : slicePrefix s n = some (s.take n) :=
  if_pos h

/-- `cmp_dir_output`, with no result if an index is out of bounds. -/
def cmpDirOutputChecked (dir other : Str) : Option Ordering := do
  let common := min dir.length other.length
  match cmpList (← slicePrefix dir common) (← slicePrefix other common) with
  | .eq =>
    if other.length ≤ dir.length then some .gt
    else
      match cmpEntry slash (← other[dir.length]?) with
      | .eq => some (if other.length = dir.length + 1 then .eq else .lt)
      | o => some o
  | o => some o

/-- `cmp_dir_keys`, with no result if an index is out of bounds. -/
def cmpDirKeysChecked (a b : Str) : Option Ordering := do
  let common := min a.length b.length
  match cmpList (← slicePrefix a common) (← slicePrefix b common) with
  | .eq =>
    if a.length = b.length then some .eq
    else if a.length < b.length then
      match cmpEntry slash (← b[a.length]?) with
      | .eq => some .lt
      | o => some o
    else
      match cmpEntry (← a[b.length]?) slash with
      | .eq => some .gt
      | o => some o
  | o => some o

/-- `cmp_file_dir`, with no result if an index is out of bounds. -/
def cmpFileDirChecked (file dir : Str) : Option Ordering :=
  (cmpDirOutputChecked dir file).map Ordering.swap

/-- `dir_output_starts_with`, with no result if an index is out of bounds. -/
def dirOutputStartsWithChecked (dir pre : Str) : Option Bool :=
  if pre.length ≤ dir.length then some (startsWith dir pre)
  else if pre.length = dir.length + 1 ∧ startsWith pre dir then
    pre[dir.length]?.map fun c => c == slash
  else some false

/-- The comparison with a directory's output never reads out of bounds. -/
theorem cmpDirOutputChecked_eq (dir other : Str) :
    cmpDirOutputChecked dir other = some (cmpDirOutput dir other) := by
  have hd := slicePrefix_of_le (Nat.min_le_left dir.length other.length)
  have ho := slicePrefix_of_le (Nat.min_le_right dir.length other.length)
  simp only [cmpDirOutputChecked, cmpDirOutput, hd, ho, Option.bind_eq_bind, Option.bind_some]
  cases cmpList (dir.take (min dir.length other.length))
      (other.take (min dir.length other.length)) with
  | lt => rfl
  | gt => rfl
  | eq =>
    by_cases hlen : other.length ≤ dir.length
    · simp only [if_pos hlen, dif_pos hlen]
    · have hin : dir.length < other.length := Nat.lt_of_not_le hlen
      simp only [if_neg hlen, dif_neg hlen, List.getElem?_eq_getElem hin, Option.bind_some,
        List.get_eq_getElem]
      cases cmpEntry slash other[dir.length] <;> rfl

/-- Nor does the comparison of two directories. -/
theorem cmpDirKeysChecked_eq (a b : Str) : cmpDirKeysChecked a b = some (cmpDirKeys a b) := by
  have ha := slicePrefix_of_le (Nat.min_le_left a.length b.length)
  have hb := slicePrefix_of_le (Nat.min_le_right a.length b.length)
  simp only [cmpDirKeysChecked, cmpDirKeys, ha, hb, Option.bind_eq_bind, Option.bind_some]
  cases cmpList (a.take (min a.length b.length)) (b.take (min a.length b.length)) with
  | lt => rfl
  | gt => rfl
  | eq =>
    rcases Nat.lt_trichotomy a.length b.length with hlt | heq | hgt
    · simp only [if_neg (Nat.ne_of_lt hlt), if_pos hlt, dif_pos hlt, List.getElem?_eq_getElem hlt,
        Option.bind_some, List.get_eq_getElem]
      cases cmpEntry slash b[a.length] <;> rfl
    · simp only [if_pos heq]
    · simp only [if_neg (Nat.ne_of_gt hgt), if_neg (Nat.not_lt_of_gt hgt),
        dif_neg (Nat.not_lt_of_gt hgt), dif_pos hgt, List.getElem?_eq_getElem hgt, Option.bind_some,
        List.get_eq_getElem]
      cases cmpEntry a[b.length] slash <;> rfl

/-- Nor does the comparison of a file with a directory. -/
theorem cmpFileDirChecked_eq (file dir : Str) :
    cmpFileDirChecked file dir = some (cmpFileDir file dir) := by
  rw [cmpFileDirChecked, cmpDirOutputChecked_eq]
  rfl

/-- Nor does the test for a prefix. -/
theorem dirOutputStartsWithChecked_eq (dir pre : Str) :
    dirOutputStartsWithChecked dir pre = some (dirOutputStartsWith dir pre) := by
  unfold dirOutputStartsWithChecked dirOutputStartsWith
  by_cases hshort : pre.length ≤ dir.length
  · rw [if_pos hshort, if_pos hshort]
  · rw [if_neg hshort, if_neg hshort]
    by_cases hlen : pre.length = dir.length + 1
    · have hin : dir.length < pre.length := by omega
      rw [dif_pos hlen, List.getElem?_eq_getElem hin]
      cases hstart : startsWith pre dir <;> simp [hlen]
    · rw [dif_neg hlen, if_neg fun h => hlen h.1]

/-! ## Cursors -/

namespace Cursor

variable {a b c : Cursor}

/-- A cursor does not come after another one exactly if its output does not. -/
theorem cmp_ne_gt_iff : a.cmp b ≠ .gt ↔ outputKey a.entry ≤ outputKey b.entry := by
  rw [cmp_eq, ne_eq, cmpList_eq_gt_iff, not_lt]

/-- Cursors compare equal exactly if their outputs are equal. -/
theorem cmp_eq_eq_iff : a.cmp b = .eq ↔ outputKey a.entry = outputKey b.entry := by
  rw [cmp_eq, cmpList_eq_eq_iff]

/-- Swapping two cursors swaps the comparison. -/
theorem cmp_swap : (a.cmp b).swap = b.cmp a := by
  rw [cmp_eq, cmp_eq, cmpList_swap]

/-- The array of a cursor is in the order of cursors. -/
theorem cmp_of_idx_le (hlisting : a.listing = b.listing) (hfiles : a.files = b.files)
    (hidx : a.idx ≤ b.idx) : a.cmp b ≠ .gt := by
  have hb : b.entry ∈ b.remaining := by
    rw [remaining_eq]
    exact List.mem_cons_self
  rw [remaining, ← hlisting, ← hfiles] at hb
  rw [cmp_ne_gt_iff]
  exact a.entry_le (List.drop_subset_drop_left _ hidx hb)

/-- `files.sort_by(..)` and `dirs.sort_by(..)`: the comparison of two entries of one kind does not
say that the first comes after the second. -/
def sortedBefore (a b : Cursor) : Bool :=
  if a.files then decide (a.front ≤ b.front) else cmpDirKeys a.front b.front != .gt

/-- The predicate of the binary searches for entries at or before a bound. -/
def isAtMost (bound : Str) (c : Cursor) : Bool :=
  if c.files then decide (c.front ≤ bound) else cmpDirOutput c.front bound != .gt

/-- The predicate of the binary searches for entries before a bound. -/
def isBelow (bound : Str) (c : Cursor) : Bool :=
  if c.files then decide (c.front < bound) else cmpDirOutput c.front bound == .lt

/-- The front of a cursor is the key of its entry, and tells its output. -/
theorem outputKey_entry : outputKey c.entry = if c.files then c.front else dirOutput c.front := by
  obtain ⟨listing, files, idx, h⟩ := c
  cases files <;> rfl

/-- Entries of one kind are sorted in the order of cursors. -/
theorem sortedBefore_iff (hfiles : a.files = b.files) : a.sortedBefore b = true ↔ a.cmp b ≠ .gt := by
  rw [cmp_ne_gt_iff, outputKey_entry, outputKey_entry, sortedBefore, ← hfiles]
  cases a.files
  · simp only [Bool.false_eq_true, if_false]
    rw [bne_iff_ne, ne_eq, cmpDirKeys_eq, cmpList_eq_gt_iff, not_lt]
  · simp

/-- A search for entries at or before a bound looks at their outputs. -/
theorem isAtMost_iff (bound : Str) : c.isAtMost bound = true ↔ outputKey c.entry ≤ bound := by
  rw [outputKey_entry, isAtMost]
  cases c.files
  · exact cmpDirOutput_ne_gt_iff
  · simp

/-- So does a search for entries before a bound. -/
theorem isBelow_iff (bound : Str) : c.isBelow bound = true ↔ outputKey c.entry < bound := by
  rw [outputKey_entry, isBelow]
  cases c.files
  · simp only [Bool.false_eq_true, if_false]
    rw [beq_iff_eq, cmpDirOutput_eq, cmpList_eq_lt_iff]
  · simp

end Cursor

/-- The comparators are the byte order on output keys, and no index in them is out of bounds. The
order of cursors is a total preorder in which equal means equal outputs, each array is in this
order, and its sorting and its binary searches agree with it. -/
theorem comparators_exact :
    (∀ dir other, cmpDirOutputChecked dir other = some (cmpList (dirOutput dir) other)) ∧
    (∀ a b, cmpDirKeysChecked a b = some (cmpList (dirOutput a) (dirOutput b))) ∧
    (∀ file dir, cmpFileDirChecked file dir = some (cmpList file (dirOutput dir))) ∧
    (∀ dir pre, dirOutputStartsWithChecked dir pre = some (decide (pre <+: dirOutput dir))) ∧
    (∀ a : Cursor, a.cmp a = .eq) ∧
    (∀ a b c : Cursor, a.cmp b ≠ .gt → b.cmp c ≠ .gt → a.cmp c ≠ .gt) ∧
    (∀ a b : Cursor, a.cmp b ≠ .gt ∨ b.cmp a ≠ .gt) ∧
    (∀ a b : Cursor, a.cmp b ≠ .gt → b.cmp a ≠ .gt → outputKey a.entry = outputKey b.entry) ∧
    (∀ a b : Cursor, (a.cmp b).swap = b.cmp a ∧
      (a.cmp b = .eq ↔ outputKey a.entry = outputKey b.entry)) ∧
    (∀ a b : Cursor, a.files = b.files → (a.sortedBefore b = true ↔ a.cmp b ≠ .gt) ∧
      (a.listing = b.listing → a.idx ≤ b.idx → a.cmp b ≠ .gt)) ∧
    (∀ (a b : Cursor) (bound : Str), a.cmp b ≠ .gt →
      (b.isAtMost bound = true → a.isAtMost bound = true) ∧
      (b.isBelow bound = true → a.isBelow bound = true)) := by
  refine ⟨fun dir other => ?_, fun a b => ?_, fun file dir => ?_, fun dir pre => ?_, fun a => ?_,
    fun a b c hab hbc => ?_, fun a b => ?_, fun a b hab hba => ?_,
    fun a b => ⟨Cursor.cmp_swap, Cursor.cmp_eq_eq_iff⟩,
    fun a b hfiles => ⟨Cursor.sortedBefore_iff hfiles, fun hlisting hidx => ?_⟩,
    fun a b bound hab => ?_⟩
  · rw [cmpDirOutputChecked_eq, cmpDirOutput_eq]
  · rw [cmpDirKeysChecked_eq, cmpDirKeys_eq]
  · rw [cmpFileDirChecked_eq, cmpFileDir_eq]
  · rw [dirOutputStartsWithChecked_eq, Option.some.injEq, Bool.eq_iff_iff, decide_eq_true_iff]
    exact dirOutputStartsWith_iff dir pre
  · exact Cursor.cmp_eq_eq_iff.mpr rfl
  · rw [Cursor.cmp_ne_gt_iff] at hab hbc ⊢
    exact le_trans hab hbc
  · rw [Cursor.cmp_ne_gt_iff, Cursor.cmp_ne_gt_iff]
    exact le_total _ _
  · rw [Cursor.cmp_ne_gt_iff] at hab hba
    exact le_antisymm hab hba
  · exact Cursor.cmp_of_idx_le hlisting hfiles hidx
  · rw [Cursor.cmp_ne_gt_iff] at hab
    rw [Cursor.isAtMost_iff, Cursor.isAtMost_iff, Cursor.isBelow_iff, Cursor.isBelow_iff]
    exact ⟨le_trans hab, lt_of_le_of_lt hab⟩

/-- For example the directory `0` between the files `0!` and `0/x`, and at or before `0/x`. -/
theorem comparators_exact_mixed : ∃ first dir last : Cursor,
    first.front = [0x30, 0x21] ∧ dir.front = [0x30] ∧ last.front = [0x30, 0x2F, 0x78] ∧
      first.cmp last ≠ .gt ∧ first.isAtMost last.front = true := by
  obtain ⟨-, -, -, -, -, htrans, -, -, -, -, hsearch⟩ := comparators_exact
  let file (key : Str) : Cursor :=
    ⟨⟨[⟨key, 0, 0⟩], [], by simp, by simp⟩, true, 0, by simp⟩
  let dir : Cursor := ⟨⟨[], [[0x30]], by simp, by simp⟩, false, 0, by simp⟩
  have hfirst : (file [0x30, 0x21]).cmp dir ≠ .gt := by decide
  have hlast : dir.cmp (file [0x30, 0x2F, 0x78]) ≠ .gt := by decide
  refine ⟨file [0x30, 0x21], dir, file [0x30, 0x2F, 0x78], rfl, rfl, rfl, ?_, ?_⟩
  · exact htrans _ _ _ hfirst hlast
  · exact (hsearch _ dir _ hfirst).1 (by decide)

end HdfsS3Gateway
