import HdfsS3Gateway.Core.Tokens
import HdfsS3Gateway.S3.Frontier

/-!
# What a marker rules out

A listing that resumes after a marker skips the directories that cannot hold a later key. For one
directory the test is exact. For the directories of a listing, in the order of their outputs, the
search finds where the others begin: siblings do not nest, so at most one of them has keys on both
sides of the marker, and it is the first that is kept.

Both are so whichever strings may follow the directory, all of them or only those in UTF-8.
-/

namespace HdfsS3Gateway

open Lexicographic SortedSearch

/-! ## One directory -/

/-- The keys of a directory reach beyond the marker exactly if the test says so: beyond its output,
or, when the marker is among them, beyond the marker. -/
theorem not_dirChildrenAllBefore_iff (d m : Str) :
    dirChildrenAllBefore d m = false ↔ m < dirOutput d ∨ dirOutput d <+: m := by
  rw [Bool.eq_false_iff, ne_eq, dirChildrenAllBefore_iff, not_and_or, not_not, not_lt]
  constructor
  · rintro (hle | hpre)
    · rcases lt_or_eq_of_le hle with hlt | rfl
      · exact Or.inl hlt
      · exact Or.inr List.prefix_rfl
    · exact Or.inr hpre
  · exact Or.imp_left le_of_lt

/-- Every key of a directory that is ruled out comes before the marker. -/
theorem lt_of_dirChildrenAllBefore {d m : Str} (h : dirChildrenAllBefore d m = true) (x : Str) :
    dirOutput d ++ x < m := by
  rw [dirChildrenAllBefore_iff] at h
  exact append_lt_of_lt h.1 h.2 x

/-- A directory that is not ruled out has a key after the marker, in UTF-8 if both are. -/
theorem exists_lt_of_not_before {d m : Str} (h : dirChildrenAllBefore d m = false) :
    ∃ x, (Utf8.Valid d → Utf8.Valid m → Utf8.Valid x) ∧ m < dirOutput d ++ x := by
  rcases (not_dirChildrenAllBefore_iff d m).mp h with hlt | ⟨t, rfl⟩
  · refine ⟨[], fun _ _ => Utf8.valid_nil, ?_⟩
    rwa [List.append_nil]
  · refine ⟨t ++ [slash], fun hd hm => ?_, ?_⟩
    · exact ((hd.append valid_slash).right hm).append valid_slash
    · rw [append_lt_append_iff]
      exact lt_of_le_of_ne (le_of_isPrefix (List.prefix_append _ _)) (by simp)

/-- The test is exact. -/
theorem dirChildrenAllBefore_iff_forall (d m : Str) :
    dirChildrenAllBefore d m = true ↔ ∀ x, dirOutput d ++ x < m := by
  refine ⟨lt_of_dirChildrenAllBefore, fun hall => ?_⟩
  by_contra hnot
  obtain ⟨x, -, hlt⟩ := exists_lt_of_not_before (Bool.eq_false_iff.mpr hnot)
  exact lt_asymm hlt (hall x)

/-- It is exact for the keys in UTF-8. -/
theorem dirChildrenAllBefore_iff_forall_valid {d m : Str} (hd : Utf8.Valid d) (hm : Utf8.Valid m) :
    dirChildrenAllBefore d m = true ↔ ∀ x, Utf8.Valid x → dirOutput d ++ x < m := by
  refine ⟨fun h x _ => lt_of_dirChildrenAllBefore h x, fun hall => ?_⟩
  by_contra hnot
  obtain ⟨x, hx, hlt⟩ := exists_lt_of_not_before (Bool.eq_false_iff.mpr hnot)
  exact lt_asymm hlt (hall x (hx hd hm))

/-! ## The directories of a listing -/

/-- A string is below a directory if it continues the directory's key with a separator. -/
theorem dirOutput_isPrefix {d m : Str} (hpre : d <+: m) (hlen : d.length < m.length)
    (hslash : m.get ⟨d.length, hlen⟩ = slash) : dirOutput d <+: m := by
  obtain ⟨t, rfl⟩ := hpre
  cases t with
  | nil => simp at hlen
  | cons b t =>
    have hb : b = slash := by simpa using hslash
    rw [hb, dirOutput]
    exact ⟨t, by simp⟩

variable {dirs : List Str} {marker : Str}

/-- The search steps back from the partition point only for a directory that the marker is below. -/
theorem dirsStartAfter_cases (marker : Str)
    (hsorted : dirs.Pairwise fun a b => dirOutput a ≤ dirOutput b) :
    dirsStartAfter dirs marker = partitionPoint (fun d => cmpDirOutput d marker != .gt) dirs ∨
      (dirsStartAfter dirs marker + 1 =
          partitionPoint (fun d => cmpDirOutput d marker != .gt) dirs ∧
        ∃ d, dirs[dirsStartAfter dirs marker]? = some d ∧ dirOutput d <+: marker) := by
  have hle : partitionPoint (fun d => cmpDirOutput d marker != .gt) dirs ≤ dirs.length := by
    rw [partitionPoint_eq_length_filter (partitioned_dirs hsorted marker).2]
    exact List.length_filter_le _ _
  unfold dirsStartAfter
  simp only []
  set start := partitionPoint (fun d => cmpDirOutput d marker != .gt) dirs
  split
  · rename_i candidate hlast
    split
    · rename_i hlong
      split
      · rename_i hbelow
        rw [Bool.and_eq_true, startsWith_iff, beq_iff_eq] at hbelow
        rw [List.getLast?_take] at hlast
        split at hlast
        · contradiction
        · rename_i hpos
          have hin : start - 1 < dirs.length := by omega
          rw [List.getElem?_eq_getElem hin, Option.some_or] at hlast
          refine Or.inr ⟨by omega, candidate, ?_, ?_⟩
          · rw [List.getElem?_eq_getElem hin]
            exact hlast
          · exact dirOutput_isPrefix hbelow.1 hlong hbelow.2
      · exact Or.inl rfl
    · exact Or.inl rfl
  · exact Or.inl rfl

/-- What the search keeps is not ruled out. -/
theorem not_before_of_le (hsorted : dirs.Pairwise fun a b => dirOutput a ≤ dirOutput b) {j : ℕ}
    (hj : j < dirs.length) (hle : dirsStartAfter dirs marker ≤ j) :
    dirChildrenAllBefore dirs[j] marker = false := by
  have hpart := (partitioned_dirs hsorted marker).2
  rw [not_dirChildrenAllBefore_iff]
  by_cases hout : dirOutput dirs[j] ≤ marker
  · -- only the directory that the search stepped back for is at or before the marker
    have hbelow : j < partitionPoint (fun d => cmpDirOutput d marker != .gt) dirs := by
      rw [partitionPoint_eq hpart]
      exact (hpart.getElem_iff j hj).mp (cmpDirOutput_ne_gt_iff.mpr hout)
    rcases dirsStartAfter_cases marker hsorted with heq | ⟨hback, d, hd, hpre⟩
    · omega
    · obtain rfl : j = dirsStartAfter dirs marker := by omega
      rw [List.getElem?_eq_getElem hj] at hd
      rw [Option.some.inj hd]
      exact Or.inr hpre
  · exact Or.inl (not_le.mp hout)

/-- The search keeps exactly the directories that are not ruled out. -/
theorem dirsStartAfter_le_iff (marker : Str)
    (hsorted : dirs.Pairwise fun a b => dirOutput a ≤ dirOutput b) (hsib : Siblings dirs) {j : ℕ}
    (hj : j < dirs.length) :
    dirsStartAfter dirs marker ≤ j ↔ dirChildrenAllBefore dirs[j] marker = false := by
  refine ⟨not_before_of_le hsorted hj, fun hnot => ?_⟩
  by_contra hlt
  have hmem : dirs[j] ∈ dirs.take (dirsStartAfter dirs marker) :=
    List.mem_take_iff_getElem.mpr ⟨j, by omega, rfl⟩
  rw [behind_of_mem_take hsorted hsib hmem] at hnot
  contradiction

/-- A directory that the marker is below is the first one kept. -/
theorem eq_dirsStartAfter_of_isPrefix
    (hsorted : dirs.Pairwise fun a b => dirOutput a ≤ dirOutput b) (hsib : Siblings dirs) {j : ℕ}
    (hj : j < dirs.length) (hpre : dirOutput dirs[j] <+: marker) :
    j = dirsStartAfter dirs marker := by
  have hpart := (partitioned_dirs hsorted marker).2
  have hkept : dirsStartAfter dirs marker ≤ j :=
    (dirsStartAfter_le_iff marker hsorted hsib hj).mpr
      ((not_dirChildrenAllBefore_iff _ _).mpr (Or.inr hpre))
  have hbelow : j < partitionPoint (fun d => cmpDirOutput d marker != .gt) dirs := by
    rw [partitionPoint_eq hpart]
    exact (hpart.getElem_iff j hj).mp (cmpDirOutput_ne_gt_iff.mpr (le_of_isPrefix hpre))
  rcases dirsStartAfter_cases marker hsorted with heq | ⟨hback, -⟩ <;> omega

/-- The directories with one parent, given by distinct names without a separator, do not nest. -/
theorem siblings_of_names {parent : Str} {names : List Str} (hnodup : names.Nodup)
    (hslash : ∀ name ∈ names, slash ∉ name) : Siblings (names.map (parent ++ ·)) := by
  apply List.pairwise_map.mpr
  apply List.Nodup.pairwise_of_forall_ne hnodup
  intro a ha b hb hne hpre
  rw [dirOutput, dirOutput, List.append_assoc, List.append_assoc, List.prefix_append_right_inj,
    List.prefix_concat_iff] at hpre
  rcases hpre with heq | hin
  · exact hne (List.append_cancel_right heq)
  · exact hslash b hb (hin.subset (by simp))

/-- A directory with keys on both sides of the marker has the marker below it. -/
theorem isPrefix_of_straddles {d m x y : Str} (hx : dirOutput d ++ x ≤ m) (hy : m < dirOutput d ++ y) :
    dirOutput d <+: m :=
  prefix_of_between (List.prefix_append _ y)
    (le_trans (le_of_isPrefix (List.prefix_append _ x)) hx) (le_of_lt hy)

/-- The test for one directory is exact, over all strings and over those in UTF-8. For sorted
siblings, the search returns the least index from which on every directory has a key after the
marker, and only the directory at this index can have keys on both sides of it. -/
theorem marker_bounds {parent : Str} {names : List Str} (hnodup : names.Nodup)
    (hslash : ∀ name ∈ names, slash ∉ name) (hdirs : dirs = names.map (parent ++ ·))
    (hsorted : dirs.Pairwise fun a b => cmpDirKeys a b ≠ .gt) (marker : Str) :
    (∀ d m, dirChildrenAllBefore d m = true ↔ ∀ x, dirOutput d ++ x < m) ∧
    (∀ d m, Utf8.Valid d → Utf8.Valid m →
      (dirChildrenAllBefore d m = true ↔ ∀ x, Utf8.Valid x → dirOutput d ++ x < m)) ∧
    dirsStartAfter dirs marker ≤ dirs.length ∧
    ∀ (j : ℕ) (hj : j < dirs.length),
      (dirsStartAfter dirs marker ≤ j ↔ ∃ x, marker < dirOutput dirs[j] ++ x) ∧
      (Utf8.Valid dirs[j] → Utf8.Valid marker →
        (dirsStartAfter dirs marker ≤ j ↔ ∃ x, Utf8.Valid x ∧ marker < dirOutput dirs[j] ++ x)) ∧
      ((∃ x, dirOutput dirs[j] ++ x ≤ marker) → (∃ x, marker < dirOutput dirs[j] ++ x) →
        j = dirsStartAfter dirs marker) := by
  have hsib : Siblings dirs := hdirs ▸ siblings_of_names hnodup hslash
  have hsorted : dirs.Pairwise fun a b => dirOutput a ≤ dirOutput b := by
    refine hsorted.imp fun hab => ?_
    rwa [ne_eq, cmpDirKeys_eq, cmpList_eq_gt_iff, not_lt] at hab
  refine ⟨dirChildrenAllBefore_iff_forall, fun d m => dirChildrenAllBefore_iff_forall_valid, ?_, ?_⟩
  · apply le_trans (dirsStartAfter_le dirs marker)
    rw [partitionPoint_eq_length_filter (partitioned_dirs hsorted marker).2]
    exact List.length_filter_le _ _
  · intro j hj
    have hkept := dirsStartAfter_le_iff marker hsorted hsib hj
    -- a directory that is ruled out has no key after the marker
    have hlater : ∀ x, marker < dirOutput dirs[j] ++ x →
        dirChildrenAllBefore dirs[j] marker = false := by
      intro x hx
      rw [Bool.eq_false_iff]
      exact fun hbefore => lt_asymm hx (lt_of_dirChildrenAllBefore hbefore x)
    refine ⟨?_, fun hd hm => ?_, ?_⟩
    · rw [hkept]
      constructor
      · intro hnot
        obtain ⟨x, -, hx⟩ := exists_lt_of_not_before hnot
        exact ⟨x, hx⟩
      · rintro ⟨x, hx⟩
        exact hlater x hx
    · rw [hkept]
      constructor
      · intro hnot
        obtain ⟨x, hvalid, hx⟩ := exists_lt_of_not_before hnot
        exact ⟨x, hvalid hd hm, hx⟩
      · rintro ⟨x, -, hx⟩
        exact hlater x hx
    · rintro ⟨x, hx⟩ ⟨y, hy⟩
      exact eq_dirsStartAfter_of_isPrefix hsorted hsib hj (isPrefix_of_straddles hx hy)

/-- For example the directories `0!`, `0` and `00`, whose order by name is another one, after `0/x`,
which is below the second. -/
theorem marker_bounds_straddled :
    dirsStartAfter [[0x30, 0x21], [0x30], [0x30, 0x30]] [0x30, 0x2F, 0x78] = 1 ∧
      ∃ x, ([0x30, 0x2F, 0x78] : Str) < dirOutput [0x30] ++ x := by
  obtain ⟨-, -, -, hall⟩ := @marker_bounds [[0x30, 0x21], [0x30], [0x30, 0x30]] []
    [[0x30, 0x21], [0x30], [0x30, 0x30]] (by decide) (by decide) rfl (by decide) [0x30, 0x2F, 0x78]
  have hstart : dirsStartAfter [[0x30, 0x21], [0x30], [0x30, 0x30]] [0x30, 0x2F, 0x78] = 1 := by
    decide
  exact ⟨hstart, (hall 1 (by decide)).1.mp (Nat.le_of_eq hstart)⟩

end HdfsS3Gateway
