import HdfsS3Gateway.Core.Outputs
import HdfsS3Gateway.Core.PrefixStart

/-!
# Pages of one directory for the delimiter `/`

On the direct children of the directory that a prefix names, a file that starts with the prefix is
an output itself, and so is the output key of a directory. The merge loop emits these outputs in
order, so its page is the cut that the general paginator returns.
-/

namespace HdfsS3Gateway

open SortedSearch Lexicographic

/-! ## The level of a prefix -/

/-- The directory part of a prefix: everything up to and including its last `/`. -/
def dirPart (pre : Str) : Str :=
  match rfindSlash pre with
  | some i => pre.take (i + 1)
  | none => []

/-- The key is the directory part of the prefix and a name. -/
def InLevel (pre key : Str) : Prop := ∃ name, name ≠ [] ∧ slash ∉ name ∧ key = dirPart pre ++ name

/-- Any prefix is a run of pieces, each followed by `/`, and a last piece. -/
theorem exists_dirPrefix_append (pre : Str) :
    ∃ qs t, (∀ s ∈ qs, slash ∉ s) ∧ slash ∉ t ∧ pre = dirPrefix qs ++ t := by
  obtain ⟨qs, t, hsplit⟩ : ∃ qs t, splitSlash pre = qs ++ [t] :=
    ⟨_, _, (List.dropLast_append_getLast (splitSlash_ne_nil pre)).symm⟩
  have hmem : ∀ s ∈ qs ++ [t], slash ∉ s := fun s hs =>
    slash_not_mem_of_mem_splitSlash (hsplit ▸ hs)
  refine ⟨qs, t, fun s hs => hmem s (by simp [hs]), hmem t (by simp), ?_⟩
  rw [← joinSlash_splitSlash pre, hsplit, joinSlash_append_eq qs (by simp), joinSlash_singleton]

/-- The directory part consists of the pieces before the last one. -/
theorem dirPart_append {qs : List Str} {t : Str} (ht : slash ∉ t) :
    dirPart (dirPrefix qs ++ t) = dirPrefix qs := by
  unfold dirPart
  by_cases hqs : qs = []
  · rw [hqs, dirPrefix_nil, List.nil_append, (rfindSlash_eq_none_iff t).mpr ht]
  · have hlen : (dirPrefix qs).length = (joinSlash qs).length + 1 := by simp [dirPrefix_eq hqs]
    have hfind : rfindSlash (dirPrefix qs ++ t) = some (joinSlash qs).length := by
      rw [dirPrefix_eq hqs, List.append_assoc, List.singleton_append, rfindSlash_append ht]
    rw [hfind]
    simp only []
    rw [← hlen, List.take_left]

/-- After its directory part a prefix has no separator. -/
theorem exists_dirPart_append (pre : Str) : ∃ t, slash ∉ t ∧ pre = dirPart pre ++ t := by
  obtain ⟨qs, t, -, ht, rfl⟩ := exists_dirPrefix_append pre
  exact ⟨t, ht, by rw [dirPart_append ht]⟩

/-- What follows the prefix in a key of its level has no separator. -/
theorem InLevel.slash_not_mem {pre key rest : Str} (h : InLevel pre key) (hkey : key = pre ++ rest) :
    slash ∉ rest := by
  obtain ⟨name, -, hname, hlevel⟩ := h
  obtain ⟨t, -, hpre⟩ := exists_dirPart_append pre
  have hsame : t ++ rest = name := by
    apply (List.append_right_inj (dirPart pre)).mp
    rw [← List.append_assoc, ← hpre, ← hkey, hlevel]
  exact fun hmem => hname (hsame ▸ List.mem_append_right t hmem)

/-- For a key of its level, the prefix matches the output key exactly when it matches the key. -/
theorem InLevel.prefix_dirOutput_iff {pre key : Str} (h : InLevel pre key) :
    pre <+: dirOutput key ↔ pre <+: key := by
  refine ⟨fun hp => ?_, fun hp => hp.trans (List.prefix_append _ _)⟩
  obtain ⟨name, -, -, rfl⟩ := h
  obtain ⟨t, ht, hpre⟩ := exists_dirPart_append pre
  generalize dirPart pre = dir at *
  subst hpre
  rw [dirOutput, List.append_assoc, List.prefix_append_right_inj] at hp
  rw [List.prefix_append_right_inj]
  rcases List.prefix_concat_iff.mp hp with heq | hp
  · exact absurd (heq ▸ by simp) ht
  · exact hp

/-- If the prefix matches the output key, it matches the key, and no separator follows it there. -/
def OnLevel (pre key : Str) : Prop := pre <+: dirOutput key → ∃ rest, key = pre ++ rest ∧ slash ∉ rest

/-- A key of the level of the prefix is on it. -/
theorem InLevel.onLevel {pre key : Str} (h : InLevel pre key) : OnLevel pre key := by
  intro hpre
  obtain ⟨rest, hkey⟩ := h.prefix_dirOutput_iff.mp hpre
  exact ⟨rest, hkey.symm, h.slash_not_mem hkey.symm⟩

/-- The first separator is at the end of a piece without separators. -/
theorem findStr_piece {s : Str} (hs : slash ∉ s) (b : Str) :
    findStr (s ++ slash :: b) [slash] = some s.length := by
  induction s with
  | nil => simp [findStr, startsWith]
  | cons x s ih =>
    obtain ⟨hx, hs⟩ := not_or.mp (List.mem_cons.not.mp hs)
    have hhead : startsWith (x :: (s ++ slash :: b)) [slash] = false := by
      simp [startsWith, List.isPrefixOf, hx]
    rw [List.cons_append, findStr, hhead, ih hs]
    rfl

/-- The group of a key with one more piece and a separator after the prefix. -/
theorem groupsAt_piece {pre s b p : Str} (hs : slash ∉ s) :
    GroupsAt pre [slash] (pre ++ (s ++ slash :: b)) p ↔ p = dirOutput (pre ++ s) := by
  have htake : (s ++ slash :: b).take (s.length + [slash].length) = s ++ [slash] := by
    simp [List.take_append, List.take_of_length_le]
  rw [groupsAt_iff (findStr_piece hs b), htake, dirOutput, List.append_assoc]

/-- The group of a directory on the level is its output key. -/
theorem OnLevel.groupsAt_iff {pre key p : Str} (h : OnLevel pre key) (hkey : pre <+: key) :
    GroupsAt pre [slash] (dirOutput key) p ↔ p = dirOutput key := by
  obtain ⟨rest, rfl, hrest⟩ := h (hkey.trans (List.prefix_append _ _))
  rw [dirOutput, List.append_assoc, groupsAt_piece hrest, dirOutput, List.append_assoc]

/-- What is left of two arrays: the files that start with the prefix, and the output keys of the
directories that do. -/
def Remaining (pre : Str) (files : List ListEntry) (dirs : List Str) : Output → Prop
  | .inl f => f ∈ files ∧ pre <+: f.key
  | .inr p => ∃ d ∈ dirs, pre <+: dirOutput d ∧ p = dirOutput d

/-- On the level of the prefix the outputs are the matching files and output keys. -/
theorem isOutput_level {files : List ListEntry} {dirs : List Str} {pre : Str}
    (hfiles : ∀ f ∈ files, ∀ rest, f.key = pre ++ rest → slash ∉ rest)
    (hdirs : ∀ d ∈ dirs, OnLevel pre d) (x : Output) :
    IsOutput files dirs pre (some [slash]) x ↔ Remaining pre files dirs x := by
  cases x with
  | inl f =>
    constructor
    · exact fun h => ⟨h.1, h.2.1⟩
    · rintro ⟨hf, rest, hkey⟩
      refine ⟨hf, ⟨rest, hkey⟩, fun delim hdelim _ hin => ?_⟩
      obtain rfl := Option.some.inj hdelim
      rw [← hkey, List.drop_left] at hin
      exact hfiles f hf rest hkey.symm (hin.subset List.mem_cons_self)
  | inr p =>
    constructor
    · rintro (⟨f, hf, delim, hdelim, -, a, b, hkey, -⟩ | ⟨-, d, hd, hpre, hgroup⟩)
      · -- a file of the level has no separator after the prefix
        obtain rfl := Option.some.inj hdelim
        exact absurd (by simp) (hfiles f hf _ hkey)
      · exact ⟨d, hd, hpre.trans (List.prefix_append _ _),
          ((hdirs d hd).groupsAt_iff hpre).mp hgroup⟩
    · rintro ⟨d, hd, hpre, hp⟩
      obtain ⟨rest, hkey, -⟩ := hdirs d hd hpre
      have hmatch : pre <+: d := ⟨rest, hkey.symm⟩
      exact Or.inr ⟨rfl, d, hd, hmatch, ((hdirs d hd).groupsAt_iff hmatch).mpr hp⟩

/-! ## The merge -/

/-- Drop entries outside the prefix range: those below it one by one, those past it all at once. -/
def skipOutside {α : Type} (inRange past : α → Bool) : List α → List α
  | [] => []
  | x :: xs =>
    if inRange x then x :: xs
    else if past x then []
    else skipOutside inRange past xs

/-- Both skips of the paginator are this one. -/
theorem skipFiles_eq (pre : Str) (files : List ListEntry) :
    skipFiles pre files =
      skipOutside (fun f => startsWith f.key pre) (fun f => decide (pre < f.key)) files := by
  induction files with
  | nil => rfl
  | cons f files ih => simp only [skipFiles, skipOutside, ih, decide_eq_true_eq]

theorem skipDirs_eq (pre : Str) (dirs : List Str) :
    skipDirs pre dirs =
      skipOutside (fun d => dirOutputStartsWith d pre) (fun d => cmpDirOutput d pre == .gt) dirs := by
  induction dirs with
  | nil => rfl
  | cons d dirs ih => simp only [skipDirs, skipOutside, ih, beq_iff_eq]

section Skip

variable {α : Type} {inRange past : α → Bool} {xs : List α}

/-- Skipping drops leading entries. -/
theorem skipOutside_suffix (inRange past : α → Bool) (xs : List α) :
    skipOutside inRange past xs <:+ xs := by
  induction xs with
  | nil => exact List.suffix_rfl
  | cons x xs ih =>
    rw [skipOutside]
    split_ifs
    · exact List.suffix_rfl
    · exact List.nil_suffix
    · exact ih.trans (List.suffix_cons x xs)

/-- After skipping, the front entry is in the range. -/
theorem inRange_of_skipOutside {x : α} {rest : List α}
    (h : skipOutside inRange past xs = x :: rest) : inRange x = true := by
  induction xs with
  | nil => contradiction
  | cons y xs ih =>
    rw [skipOutside] at h
    split_ifs at h with hrange
    · rw [← (List.cons.inj h).1]
      exact hrange
    · exact ih h

/-- In an array sorted by output key, skipping drops no entry that starts with the prefix. -/
theorem mem_skipOutside {key : α → Str} {pre : Str} (hrange : ∀ x, inRange x = true ↔ pre <+: key x)
    (hpast : ∀ x, past x = true ↔ pre < key x) (hxs : xs.Pairwise fun a b => key a < key b) {x : α}
    (hx : pre <+: key x) : x ∈ skipOutside inRange past xs ↔ x ∈ xs := by
  induction xs with
  | nil => rfl
  | cons y xs ih =>
    obtain ⟨hle, htail⟩ := List.pairwise_cons.mp hxs
    rw [skipOutside]
    split_ifs with hstart habove
    · rfl
    · -- past the range nothing starts with the prefix any more
      rw [hrange] at hstart
      have hbelow := extension_lt hx (le_of_lt ((hpast y).mp habove)) hstart
      refine ⟨fun h => by simp at h, fun h => ?_⟩
      rcases List.mem_cons.mp h with rfl | h
      · exact absurd hbelow (lt_irrefl _)
      · exact absurd hbelow (lt_asymm (hle x h))
    · rw [ih htail, List.mem_cons, or_iff_right]
      rintro rfl
      exact hstart ((hrange x).mpr hx)

end Skip

/-- Skipping leaves the same outputs. -/
theorem remaining_skip {pre : Str} {files : List ListEntry} {dirs : List Str}
    (hfiles : files.Pairwise fun a b => a.key < b.key)
    (hdirs : dirs.Pairwise fun a b => dirOutput a < dirOutput b) (x : Output) :
    Remaining pre (skipFiles pre files) (skipDirs pre dirs) x ↔ Remaining pre files dirs x := by
  rw [skipFiles_eq, skipDirs_eq]
  cases x with
  | inl f =>
    exact and_congr_left fun hpre =>
      mem_skipOutside (fun _ => startsWith_iff _ _) (fun _ => decide_eq_true_iff) hfiles hpre
  | inr p =>
    apply exists_congr
    intro d
    exact and_congr_left fun hpre =>
      mem_skipOutside (fun d => dirOutputStartsWith_iff d pre)
        (fun d => by rw [beq_iff_eq, cmpDirOutput_eq, cmpList_eq_gt_iff]) hdirs hpre.1

/-- Taking the first file leaves the other outputs. -/
theorem remaining_tail_file {pre : Str} {f : ListEntry} {files : List ListEntry} {dirs : List Str}
    (hfiles : (f :: files).Pairwise fun a b => a.key < b.key) (x : Output) :
    Remaining pre files dirs x ↔ Remaining pre (f :: files) dirs x ∧ x ≠ .inl f := by
  cases x with
  | inl g =>
    have hnew : g ∈ files → g ≠ f := by
      rintro hg rfl
      exact lt_irrefl _ ((List.pairwise_cons.mp hfiles).1 g hg)
    simp only [Remaining, List.mem_cons, ne_eq, Sum.inl.injEq]
    tauto
  | inr p => simp [Remaining]

/-- Taking the first directory leaves the other outputs. -/
theorem remaining_tail_dir {pre : Str} {d : Str} {files : List ListEntry} {dirs : List Str}
    (hdirs : (d :: dirs).Pairwise fun a b => dirOutput a < dirOutput b) (x : Output) :
    Remaining pre files dirs x ↔ Remaining pre files (d :: dirs) x ∧ x ≠ .inr (dirOutput d) := by
  cases x with
  | inl g => simp [Remaining]
  | inr p =>
    have hnew : ∀ d' ∈ dirs, dirOutput d' ≠ dirOutput d := fun d' hd' heq =>
      lt_irrefl _ (heq ▸ (List.pairwise_cons.mp hdirs).1 d' hd')
    simp only [Remaining, List.exists_mem_cons_iff, ne_eq, Sum.inr.injEq]
    constructor
    · rintro ⟨d', hd', hpre, rfl⟩
      exact ⟨Or.inr ⟨d', hd', hpre, rfl⟩, hnew d' hd'⟩
    · rintro ⟨⟨-, hp⟩ | h, hne⟩
      · exact absurd hp hne
      · exact h

/-- The outputs of a page so far. -/
def Merged.of (outputs : List Output) : Merged where
  contents := outputs.filterMap Sum.getLeft?
  commonPrefixes := outputs.filterMap Sum.getRight?
  lastKey := outputs.getLast?.map Output.key

theorem Merged.pushFile_of (outputs : List Output) (f : ListEntry) :
    (Merged.of outputs).pushFile f = Merged.of (outputs ++ [.inl f]) := by
  simp [Merged.of, Merged.pushFile]

theorem Merged.pushDir_of (outputs : List Output) (d : Str) :
    (Merged.of outputs).pushDir d = Merged.of (outputs ++ [.inr (dirOutput d)]) := by
  simp [Merged.of, Merged.pushDir]

/-- The page counts its outputs. -/
theorem Merged.count_of (outputs : List Output) :
    (Merged.of outputs).contents.length + (Merged.of outputs).commonPrefixes.length =
      outputs.length := by
  induction outputs with
  | nil => rfl
  | cons x outputs ih =>
    simp only [Merged.of] at ih ⊢
    cases x <;> simp only [List.filterMap_cons, Sum.getLeft?, Sum.getRight?, List.length_cons] <;> omega

/-- The page made of the outputs so far is the cut at their number. -/
theorem Merged.page_of (outputs rest : List Output) :
    (Merged.of outputs).page (decide (rest ≠ [])) = Page.cut (outputs ++ rest) outputs.length := by
  cases rest with
  | nil => simp [Merged.of, Merged.page, Page.cut]
  | cons x rest => simp [Merged.of, Merged.page, Page.cut]

/-- A least one of ascending outputs is the first. -/
theorem Ascending.eq_cons {outputs : List Output} (h : Ascending outputs) {x : Output}
    (hx : x ∈ outputs) (hle : ∀ y ∈ outputs, Output.key x ≤ Output.key y) :
    ∃ rest, outputs = x :: rest ∧ Ascending rest ∧ ∀ y, y ∈ rest ↔ y ∈ outputs ∧ y ≠ x := by
  cases outputs with
  | nil => contradiction
  | cons z rest =>
    obtain ⟨hbelow, htail⟩ := List.pairwise_cons.mp h
    obtain rfl : x = z := by
      rcases List.mem_cons.mp hx with rfl | hx
      · rfl
      · exact absurd (hbelow x hx) (not_lt.mpr (hle z List.mem_cons_self))
    refine ⟨rest, rfl, htail, fun y => ?_⟩
    have hnew : y ∈ rest → y ≠ x := by
      rintro hy rfl
      exact lt_irrefl _ (hbelow y hy)
    simp only [List.mem_cons]
    tauto

/-- Two sorted arrays of which the loop has yet to put out these outputs, in this order. -/
structure Remains (pre : Str) (files : List ListEntry) (dirs : List Str) (outputs : List Output) :
    Prop where
  files_sorted : files.Pairwise fun a b => a.key < b.key
  dirs_sorted : dirs.Pairwise fun a b => dirOutput a < dirOutput b
  ascending : Ascending outputs
  mem_iff : ∀ x, x ∈ outputs ↔ Remaining pre files dirs x

namespace Remains

variable {pre : Str} {files : List ListEntry} {dirs : List Str} {outputs : List Output}

/-- Skipping leaves what remains. -/
theorem skip (h : Remains pre files dirs outputs) :
    Remains pre (skipFiles pre files) (skipDirs pre dirs) outputs where
  files_sorted :=
    skipFiles_eq pre files ▸ h.files_sorted.sublist (skipOutside_suffix _ _ _).sublist
  dirs_sorted := skipDirs_eq pre dirs ▸ h.dirs_sorted.sublist (skipOutside_suffix _ _ _).sublist
  ascending := h.ascending
  mem_iff x := (h.mem_iff x).trans (remaining_skip h.files_sorted h.dirs_sorted x).symm

/-- Nothing remains of empty arrays. -/
theorem eq_nil (h : Remains pre [] [] outputs) : outputs = [] :=
  List.eq_nil_iff_forall_not_mem.mpr fun x hx => by
    cases x <;> simpa [Remaining] using (h.mem_iff _).mp hx

/-- A file in front of all directories is the first output that remains. -/
theorem eq_file_cons {f : ListEntry} (h : Remains pre (f :: files) dirs outputs)
    (hpre : pre <+: f.key) (hdirs : ∀ d ∈ dirs, f.key ≤ dirOutput d) :
    ∃ rest, outputs = .inl f :: rest ∧ Remains pre files dirs rest := by
  obtain ⟨hfirst, htail⟩ := List.pairwise_cons.mp h.files_sorted
  have hle : ∀ y ∈ outputs, Output.key (.inl f) ≤ Output.key y := by
    rintro (g | p) hy
    · rcases List.mem_cons.mp ((h.mem_iff _).mp hy).1 with rfl | hg
      · exact le_refl _
      · exact le_of_lt (hfirst g hg)
    · obtain ⟨d, hd, -, rfl⟩ := (h.mem_iff _).mp hy
      exact hdirs d hd
  obtain ⟨rest, hout, hrest, hmem⟩ := h.ascending.eq_cons
    ((h.mem_iff (.inl f)).mpr ⟨List.mem_cons_self, hpre⟩) hle
  refine ⟨rest, hout, htail, h.dirs_sorted, hrest, fun x => ?_⟩
  rw [hmem, h.mem_iff, remaining_tail_file h.files_sorted]

/-- A directory in front of all files is the first output that remains. -/
theorem eq_dir_cons {d : Str} (h : Remains pre files (d :: dirs) outputs)
    (hpre : pre <+: dirOutput d) (hfiles : ∀ f ∈ files, dirOutput d ≤ f.key) :
    ∃ rest, outputs = .inr (dirOutput d) :: rest ∧ Remains pre files dirs rest := by
  obtain ⟨hfirst, htail⟩ := List.pairwise_cons.mp h.dirs_sorted
  have hle : ∀ y ∈ outputs, Output.key (.inr (dirOutput d)) ≤ Output.key y := by
    rintro (g | p) hy
    · exact hfiles g ((h.mem_iff _).mp hy).1
    · obtain ⟨d', hd', -, rfl⟩ := (h.mem_iff _).mp hy
      rcases List.mem_cons.mp hd' with rfl | hd'
      · exact le_refl _
      · exact le_of_lt (hfirst d' hd')
  obtain ⟨rest, hout, hrest, hmem⟩ := h.ascending.eq_cons
    ((h.mem_iff (.inr (dirOutput d))).mpr ⟨d, List.mem_cons_self, hpre, rfl⟩) hle
  refine ⟨rest, hout, h.files_sorted, htail, hrest, fun x => ?_⟩
  rw [hmem, h.mem_iff, remaining_tail_dir h.dirs_sorted]

/-- Of two arrays the file is put out first if its key is below the first output key. -/
theorem eq_file_cons_of_lt {f : ListEntry} {d : Str}
    (h : Remains pre (f :: files) (d :: dirs) outputs) (hpre : pre <+: f.key)
    (hlt : f.key < dirOutput d) :
    ∃ rest, outputs = .inl f :: rest ∧ Remains pre files (d :: dirs) rest := by
  apply h.eq_file_cons hpre
  intro d' hd'
  rcases List.mem_cons.mp hd' with rfl | hd'
  · exact le_of_lt hlt
  · exact le_of_lt (lt_trans hlt ((List.pairwise_cons.mp h.dirs_sorted).1 d' hd'))

/-- Otherwise the directory is. -/
theorem eq_dir_cons_of_le {f : ListEntry} {d : Str}
    (h : Remains pre (f :: files) (d :: dirs) outputs) (hpre : pre <+: dirOutput d)
    (hle : dirOutput d ≤ f.key) :
    ∃ rest, outputs = .inr (dirOutput d) :: rest ∧ Remains pre (f :: files) dirs rest := by
  apply h.eq_dir_cons hpre
  intro f' hf'
  rcases List.mem_cons.mp hf' with rfl | hf'
  · exact hle
  · exact le_trans hle (le_of_lt ((List.pairwise_cons.mp h.files_sorted).1 f' hf'))

end Remains

/-- After skipping, the first file starts with the prefix. -/
theorem prefix_of_skipFiles {pre : Str} {files rest : List ListEntry} {f : ListEntry}
    (h : skipFiles pre files = f :: rest) : pre <+: f.key := by
  rw [skipFiles_eq] at h
  have hrange := inRange_of_skipOutside h
  exact (startsWith_iff _ _).mp hrange

/-- So does the output key of the first directory. -/
theorem prefix_of_skipDirs {pre : Str} {dirs rest : List Str} {d : Str}
    (h : skipDirs pre dirs = d :: rest) :
    pre <+: dirOutput d := by
  rw [skipDirs_eq] at h
  have hrange := inRange_of_skipOutside h
  exact (dirOutputStartsWith_iff d pre).mp hrange

/-- One turn of the merge loop. -/
theorem slashLoop_eq (pre : Str) (maxKeys : ℕ) (files : List ListEntry) (dirs : List Str)
    (m : Merged) :
    slashLoop pre maxKeys files dirs m =
      match skipFiles pre files, skipDirs pre dirs with
      | [], [] => m.page false
      | file :: files', [] =>
        if m.contents.length + m.commonPrefixes.length = maxKeys then m.page true
        else slashLoop pre maxKeys files' [] (m.pushFile file)
      | [], dir :: dirs' =>
        if m.contents.length + m.commonPrefixes.length = maxKeys then m.page true
        else slashLoop pre maxKeys [] dirs' (m.pushDir dir)
      | file :: files', dir :: dirs' =>
        if m.contents.length + m.commonPrefixes.length = maxKeys then m.page true
        else if cmpDirOutput dir file.key = .gt then
          slashLoop pre maxKeys files' (dir :: dirs') (m.pushFile file)
        else slashLoop pre maxKeys (file :: files') dirs' (m.pushDir dir) := by
  rw [slashLoop]
  split <;> simp [*]

/-- The merge loop puts the remaining outputs after those it has, in order, and cuts the page. -/
theorem slashLoop_eq_cut {pre : Str} {maxKeys : ℕ} {files : List ListEntry} {dirs : List Str}
    {outputs : List Output} (h : Remains pre files dirs outputs) {sofar : List Output}
    (hle : sofar.length ≤ maxKeys) :
    slashLoop pre maxKeys files dirs (Merged.of sofar) = Page.cut (sofar ++ outputs) maxKeys := by
  induction hsize : files.length + dirs.length using Nat.strong_induction_on
    generalizing files dirs outputs sofar with
  | h size ih =>
  have hskip := h.skip
  have hfpre := @prefix_of_skipFiles pre files
  have hdpre := @prefix_of_skipDirs pre dirs
  have hfl := length_skipFiles_le pre files
  have hdl := length_skipDirs_le pre dirs
  -- a page that is full when something remains is truncated
  have hfull : outputs ≠ [] → sofar.length = maxKeys →
      (Merged.of sofar).page true = Page.cut (sofar ++ outputs) maxKeys := by
    rintro hne rfl
    rw [← Merged.page_of, decide_eq_true hne]
  -- pushing the first remaining output, the loop goes on with the rest
  have hpush : ∀ {fs ds x}, sofar.length ≠ maxKeys →
      (∃ rest, outputs = x :: rest ∧ Remains pre fs ds rest) → fs.length + ds.length < size →
      slashLoop pre maxKeys fs ds (Merged.of (sofar ++ [x])) =
        Page.cut (sofar ++ outputs) maxKeys := by
    intro fs ds x hcount hfirst hlt
    obtain ⟨rest, rfl, hrest⟩ := hfirst
    have hroom : (sofar ++ [x]).length ≤ maxKeys := by
      rw [List.length_append, List.length_singleton]
      omega
    rw [ih _ hlt hrest hroom rfl, List.append_assoc, List.singleton_append]
  rw [slashLoop_eq, Merged.count_of]
  generalize skipFiles pre files = fs at *
  generalize skipDirs pre dirs = ds at *
  match fs, ds with
  | [], [] =>
    have hall : sofar.take maxKeys = sofar := List.take_of_length_le hle
    simp [hskip.eq_nil, hall, hle, Merged.of, Merged.page, Page.cut]
  | [], d :: ds =>
    have hfirst := hskip.eq_dir_cons (hdpre rfl) (by simp)
    simp only []
    split_ifs with hcount
    · exact hfull (by obtain ⟨_, rfl, _⟩ := hfirst; simp) hcount
    · rw [Merged.pushDir_of]
      exact hpush hcount hfirst (by simp at hdl ⊢; omega)
  | f :: fs, [] =>
    have hfirst := hskip.eq_file_cons (hfpre rfl) (by simp)
    simp only []
    split_ifs with hcount
    · exact hfull (by obtain ⟨_, rfl, _⟩ := hfirst; simp) hcount
    · rw [Merged.pushFile_of]
      exact hpush hcount hfirst (by simp at hfl ⊢; omega)
  | f :: fs, d :: ds =>
    simp only [cmpDirOutput_eq, cmpList_eq_gt_iff]
    split_ifs with hcount hlt
    · have hmem := (hskip.mem_iff (.inl f)).mpr ⟨List.mem_cons_self, hfpre rfl⟩
      exact hfull (List.ne_nil_of_mem hmem) hcount
    · rw [Merged.pushFile_of]
      apply hpush hcount (hskip.eq_file_cons_of_lt (hfpre rfl) hlt)
      simp at hfl hdl ⊢
      omega
    · rw [Merged.pushDir_of]
      apply hpush hcount (hskip.eq_dir_cons_of_le (hdpre rfl) (not_lt.mp hlt))
      simp at hfl hdl ⊢
      omega

/-- The two lower bounds drop what is below the prefix, and what is not above the marker. -/
theorem paginateSlash_eq_slashLoop {files : List ListEntry} {dirs : List Str}
    (hfiles : files.Pairwise fun a b => a.key < b.key)
    (hdirs : dirs.Pairwise fun a b => dirOutput a < dirOutput b) (pre : Str) (marker : Option Str)
    {maxKeys : ℕ} (hmax : maxKeys ≠ 0) :
    ∃ fi di, paginateSlash files dirs pre marker maxKeys =
        slashLoop pre maxKeys (files.drop fi) (dirs.drop di) {} ∧
      (∀ f, f ∈ files.drop fi ↔ f ∈ files ∧ ¬ f.key < pre ∧ ∀ m, marker = some m → m < f.key) ∧
      ∀ d, d ∈ dirs.drop di ↔ d ∈ dirs ∧ ¬ dirOutput d < pre ∧
        ∀ m, marker = some m → m < dirOutput d := by
  have hpf := (partitioned_files (hfiles.imp le_of_lt) pre).1
  have hpd := (partitioned_dirs (hdirs.imp le_of_lt) pre).1
  unfold paginateSlash
  rw [if_neg hmax]
  cases marker with
  | none =>
    refine ⟨_, _, rfl, fun f => ?_, fun d => ?_⟩
    · rw [drop_partitionPoint hpf]
      simp
    · rw [drop_partitionPoint hpd]
      simp [cmpDirOutput_eq]
  | some m =>
    have hqf := (partitioned_files (hfiles.imp le_of_lt) m).2
    have hqd := (partitioned_dirs (hdirs.imp le_of_lt) m).2
    refine ⟨_, _, rfl, fun f => ?_, fun d => ?_⟩
    · rw [mem_drop_max_partitionPoint hpf hqf]
      simp
    · rw [mem_drop_max_partitionPoint hpd hqd]
      simp [cmpDirOutput_eq]

/-- The outputs after the lower bounds are the remaining outputs above the marker. -/
theorem remaining_drop {files fs : List ListEntry} {dirs ds : List Str} {pre : Str}
    {marker : Option Str}
    (hfs : ∀ f, f ∈ fs ↔ f ∈ files ∧ ¬ f.key < pre ∧ ∀ m, marker = some m → m < f.key)
    (hds : ∀ d, d ∈ ds ↔ d ∈ dirs ∧ ¬ dirOutput d < pre ∧
      ∀ m, marker = some m → m < dirOutput d) (x : Output) :
    Remaining pre fs ds x ↔
      Remaining pre files dirs x ∧ ∀ m, marker = some m → m < Output.key x := by
  have habove : ∀ {k : Str}, pre <+: k → ¬ k < pre := fun h => not_lt.mpr (le_of_isPrefix h)
  cases x with
  | inl f =>
    constructor
    · rintro ⟨hf, hpre⟩
      obtain ⟨hf, -, hm⟩ := (hfs f).mp hf
      exact ⟨⟨hf, hpre⟩, hm⟩
    · rintro ⟨⟨hf, hpre⟩, hm⟩
      exact ⟨(hfs f).mpr ⟨hf, habove hpre, hm⟩, hpre⟩
  | inr p =>
    constructor
    · rintro ⟨d, hd, hpre, rfl⟩
      obtain ⟨hd, -, hm⟩ := (hds d).mp hd
      exact ⟨⟨d, hd, hpre, rfl⟩, hm⟩
    · rintro ⟨⟨d, hd, hpre, rfl⟩, hm⟩
      exact ⟨d, (hds d).mpr ⟨hd, habove hpre, hm⟩, hpre, rfl⟩

/-- On the level of the prefix both paginators return the same page. -/
theorem paginateSlash_eq {files : List ListEntry} {dirs : List Str}
    (hfiles : files.Pairwise fun a b => a.key < b.key)
    (hdirs : dirs.Pairwise fun a b => dirOutput a < dirOutput b) {pre : Str}
    (hflevel : ∀ f ∈ files, ∀ rest, f.key = pre ++ rest → slash ∉ rest)
    (hdlevel : ∀ d ∈ dirs, OnLevel pre d) (marker : Option Str) (maxKeys : ℕ) :
    paginateSlash files dirs pre marker maxKeys =
      paginate files dirs pre (some [slash]) marker maxKeys := by
  by_cases hmax : maxKeys = 0
  · rw [paginateSlash, if_pos hmax, paginate, if_pos hmax]
  · have hkeys : (files.map ListEntry.key).Nodup := List.pairwise_map.mpr (hfiles.imp ne_of_lt)
    obtain ⟨outputs, hasc, hmem, hpage⟩ :=
      exists_cut_paginate hkeys dirs pre (some [slash]) marker hmax
    obtain ⟨fi, di, hslash, hfs, hds⟩ := paginateSlash_eq_slashLoop hfiles hdirs pre marker hmax
    have hremains : Remains pre (files.drop fi) (dirs.drop di) outputs :=
      ⟨hfiles.sublist (List.drop_sublist _ _), hdirs.sublist (List.drop_sublist _ _), hasc,
        fun x => by rw [hmem, isOutput_level hflevel hdlevel, remaining_drop hfs hds]⟩
    have hloop : slashLoop pre maxKeys (files.drop fi) (dirs.drop di) (Merged.of []) =
        Page.cut ([] ++ outputs) maxKeys := slashLoop_eq_cut hremains (Nat.zero_le _)
    rw [hslash, hpage]
    exact hloop

/-! ## The loops by index -/

/-- A skip by index stops in bounds, where the array that is left is the skipped one. -/
theorem skipAt_eq {α : Type} (inRange past : α → Bool) (xs : List α) {rounds i : ℕ}
    (hi : i ≤ xs.length) (hrounds : xs.length - i < rounds) :
    ∃ j, skipAt inRange past xs rounds i = some j ∧ i ≤ j ∧ j ≤ xs.length ∧
      xs.drop j = skipOutside inRange past (xs.drop i) := by
  induction rounds generalizing i with
  | zero => contradiction
  | succ rounds ih =>
    rw [skipAt]
    by_cases hlt : i < xs.length
    · rw [if_pos hlt, List.getElem?_eq_getElem hlt, List.drop_eq_getElem_cons hlt, skipOutside,
        Option.bind_eq_bind, Option.bind_some]
      by_cases hrange : inRange xs[i] = true
      · rw [if_pos hrange, if_pos hrange]
        exact ⟨i, rfl, Nat.le_refl i, hi, List.drop_eq_getElem_cons hlt⟩
      · rw [if_neg hrange, if_neg hrange]
        by_cases hpast : past xs[i] = true
        · rw [if_pos hpast, if_pos hpast]
          obtain ⟨j, hj, hle, hend, hdrop⟩ := ih (Nat.le_refl _) (by omega)
          rw [List.drop_length] at hdrop
          exact ⟨j, hj, hi.trans hle, hend, hdrop⟩
        · rw [if_neg hpast, if_neg hpast]
          obtain ⟨j, hj, hle, hend, hdrop⟩ := ih (show i + 1 ≤ xs.length from hlt) (by omega)
          exact ⟨j, hj, by omega, hend, hdrop⟩
    · rw [if_neg hlt, List.drop_eq_nil_of_le (Nat.le_of_not_lt hlt)]
      exact ⟨i, rfl, Nat.le_refl i, hi, List.drop_eq_nil_of_le (Nat.le_of_not_lt hlt)⟩

/-- The loop by index never leaves the bounds, needs one round for each entry that is left and one
more, and returns the page of the loop on what is left of the arrays. -/
theorem slashLoopAt_eq (pre : Str) (maxKeys : ℕ) (files : List ListEntry) (dirs : List Str)
    {rounds fi di : ℕ} (hfi : fi ≤ files.length) (hdi : di ≤ dirs.length)
    (hrounds : files.length - fi + (dirs.length - di) < rounds) (m : Merged) :
    slashLoopAt pre maxKeys files dirs rounds fi di m =
      some (slashLoop pre maxKeys (files.drop fi) (dirs.drop di) m) := by
  induction rounds generalizing fi di m with
  | zero => contradiction
  | succ rounds ih =>
    obtain ⟨fj, hfj, hfle, hfend, hfdrop⟩ := @skipAt_eq _ (fun f => startsWith f.key pre)
      (fun f => decide (pre < f.key)) files (files.length + 1) fi hfi (by omega)
    obtain ⟨dj, hdj, hdle, hdend, hddrop⟩ := @skipAt_eq _ (fun d => dirOutputStartsWith d pre)
      (fun d => cmpDirOutput d pre == .gt) dirs (dirs.length + 1) di hdi (by omega)
    rw [← skipFiles_eq] at hfdrop
    rw [← skipDirs_eq] at hddrop
    rw [slashLoopAt, skipFilesAt, skipDirsAt, hfj, hdj, slashLoop_eq, ← hfdrop, ← hddrop]
    simp only [Option.bind_eq_bind, Option.bind_some]
    by_cases hf : fj < files.length
    · by_cases hd : dj < dirs.length
      · rw [List.drop_eq_getElem_cons hf, List.drop_eq_getElem_cons hd]
        simp only [List.getElem?_eq_getElem hf, List.getElem?_eq_getElem hd, reduceCtorEq, and_self,
          if_false, Option.bind_some, beq_iff_eq]
        split_ifs with hcount hcmp
        · rfl
        · rw [ih hf hdend (by omega), List.drop_eq_getElem_cons hd]
        · rw [ih hfend hd (by omega), List.drop_eq_getElem_cons hf]
      · rw [List.drop_eq_getElem_cons hf, List.drop_eq_nil_of_le (Nat.le_of_not_lt hd)]
        simp only [List.getElem?_eq_getElem hf, List.getElem?_eq_none (Nat.le_of_not_lt hd),
          reduceCtorEq, false_and, if_false, Option.bind_some, if_true]
        split_ifs with hcount
        · rfl
        · rw [ih hf hdend (by omega), List.drop_eq_nil_of_le (Nat.le_of_not_lt hd)]
    · by_cases hd : dj < dirs.length
      · rw [List.drop_eq_nil_of_le (Nat.le_of_not_lt hf), List.drop_eq_getElem_cons hd]
        simp only [List.getElem?_eq_none (Nat.le_of_not_lt hf), List.getElem?_eq_getElem hd,
          reduceCtorEq, and_false, if_false, Option.bind_some, Bool.false_eq_true]
        split_ifs with hcount
        · rfl
        · rw [ih hfend hd (by omega), List.drop_eq_nil_of_le (Nat.le_of_not_lt hf)]
      · rw [List.drop_eq_nil_of_le (Nat.le_of_not_lt hf),
          List.drop_eq_nil_of_le (Nat.le_of_not_lt hd)]
        simp [List.getElem?_eq_none (Nat.le_of_not_lt hf), List.getElem?_eq_none (Nat.le_of_not_lt hd)]

/-- A partition point is a position of the array or its end. -/
theorem partitionPoint_le {α : Type} {p : α → Bool} {xs : List α} (h : Partitioned p xs) :
    partitionPoint p xs ≤ xs.length := by
  rw [partitionPoint_eq_length_filter h]
  exact List.length_filter_le p xs

/-- The paginator by index never leaves the bounds, and ends after at most one round for each entry
and one more. -/
theorem paginateSlashAt_eq {files : List ListEntry} {dirs : List Str}
    (hfiles : files.Pairwise fun a b => a.key < b.key)
    (hdirs : dirs.Pairwise fun a b => dirOutput a < dirOutput b) (pre : Str) (marker : Option Str)
    (maxKeys : ℕ) {rounds : ℕ} (hrounds : files.length + dirs.length < rounds) :
    paginateSlashAt rounds files dirs pre marker maxKeys =
      some (paginateSlash files dirs pre marker maxKeys) := by
  have hpf := (partitioned_files (hfiles.imp le_of_lt) pre).1
  have hpd := (partitioned_dirs (hdirs.imp le_of_lt) pre).1
  unfold paginateSlashAt paginateSlash
  split
  · rfl
  · cases marker with
    | none =>
      exact slashLoopAt_eq pre maxKeys files dirs (partitionPoint_le hpf) (partitionPoint_le hpd)
        (by omega) {}
    | some m =>
      have hqf := (partitioned_files (hfiles.imp le_of_lt) m).2
      have hqd := (partitioned_dirs (hdirs.imp le_of_lt) m).2
      exact slashLoopAt_eq pre maxKeys files dirs
        (Nat.max_le.mpr ⟨partitionPoint_le hpf, partitionPoint_le hqf⟩)
        (Nat.max_le.mpr ⟨partitionPoint_le hpd, partitionPoint_le hqd⟩) (by omega) {}

/-- On the level of the prefix the merge loop ends in bounds and returns the page of the general
paginator, for every prefix, marker and page size. -/
theorem paginateSlash_matches_paginate {files : List ListEntry} {dirs : List Str} {pre : Str}
    (hfiles : files.Pairwise fun a b => a.key < b.key)
    (hdirs : dirs.Pairwise fun a b => cmpDirKeys a b = .lt)
    (hflevel : ∀ f ∈ files, InLevel pre f.key) (hdlevel : ∀ d ∈ dirs, InLevel pre d)
    (marker : Option Str) (maxKeys : ℕ) :
    paginateSlash files dirs pre marker maxKeys =
        paginate files dirs pre (some [slash]) marker maxKeys ∧
      ∀ rounds, files.length + dirs.length < rounds →
        paginateSlashAt rounds files dirs pre marker maxKeys =
          some (paginateSlash files dirs pre marker maxKeys) := by
  have hsorted : dirs.Pairwise fun a b => dirOutput a < dirOutput b :=
    hdirs.imp fun h => (cmpList_eq_lt_iff _ _).mp (cmpDirKeys_eq _ _ ▸ h)
  have hfnext : ∀ f ∈ files, ∀ rest, f.key = pre ++ rest → slash ∉ rest := fun f hf _ hkey =>
    (hflevel f hf).slash_not_mem hkey
  have hdnext : ∀ d ∈ dirs, OnLevel pre d := fun d hd => (hdlevel d hd).onLevel
  exact ⟨paginateSlash_eq hfiles hsorted hfnext hdnext marker maxKeys,
    fun rounds hrounds => paginateSlashAt_eq hfiles hsorted pre marker maxKeys hrounds⟩

/-- The file `a/b` and the directories `a/0 ` and `a/0`, which are no neighbours in key order. -/
theorem paginateSlash_matches_paginate_siblings :
    let files : List ListEntry := [⟨[0x61, 0x2F, 0x62], 1, 0⟩]
    let dirs : List Str := [[0x61, 0x2F, 0x30, 0x20], [0x61, 0x2F, 0x30]]
    paginateSlash files dirs [0x61, 0x2F] none 2 =
        paginate files dirs [0x61, 0x2F] (some [slash]) none 2 ∧
      ∀ rounds, files.length + dirs.length < rounds →
        paginateSlashAt rounds files dirs [0x61, 0x2F] none 2 =
          some (paginateSlash files dirs [0x61, 0x2F] none 2) := by
  intro files dirs
  apply paginateSlash_matches_paginate
  · simp [files]
  · decide
  · simp only [files, List.mem_singleton, forall_eq]
    exact ⟨[0x62], by decide, by decide, by decide⟩
  · simp only [dirs, List.mem_cons, List.not_mem_nil, or_false, forall_eq_or_imp, forall_eq]
    exact ⟨⟨[0x30, 0x20], by decide, by decide, by decide⟩,
      ⟨[0x30], by decide, by decide, by decide⟩⟩

end HdfsS3Gateway
