import HdfsS3Gateway.Core.Path
import Mathlib.Data.List.TakeWhile

/-!
# Pushing a listing prefix down to a directory

A prefix that some canonical key starts with is a run of whole segments, each followed by `/`, and
a last piece without separators. The listing may start at the directory named by the whole
segments: every matching key lies strictly below it.

The first-segment guard of `list_start` compares a piece that may still be cut short, so the
prefixes `.` and `..` are refused although keys such as `.Trash` start with them. These are the
only prefixes for which a matching key is lost.
-/

namespace HdfsS3Gateway

/-- A nonempty sequence of file names joined by `/`. -/
def CanonicalKey (k : Str) : Prop := ∃ segs, segs ≠ [] ∧ (∀ s ∈ segs, Plain s) ∧ k = joinSlash segs

/-- A path that lies strictly under a directory, on whole segments. -/
def StrictlyUnder (p d : Str) : Prop := segmentsOf d <+: segmentsOf p ∧ segmentsOf d ≠ segmentsOf p

/-- The segments of a directory, each followed by its separator. -/
def dirPrefix (segs : List Str) : Str := segs.flatMap fun s => s ++ [slash]

@[simp] theorem dirPrefix_nil : dirPrefix [] = [] := rfl

/-- Below the root, the prefix of a directory is its key and one separator. -/
theorem dirPrefix_eq {segs : List Str} (h : segs ≠ []) : dirPrefix segs = joinSlash segs ++ [slash] := by
  induction segs with
  | nil => contradiction
  | cons s segs ih =>
    by_cases hs : segs = []
    · subst hs
      simp [dirPrefix]
    · rw [joinSlash_cons _ hs, List.append_assoc, List.cons_append, ← ih hs]
      simp [dirPrefix]

/-- A key below a directory is the directory's prefix and the remaining segments. -/
theorem joinSlash_append_eq (xs : List Str) {ys : List Str} (hy : ys ≠ []) :
    joinSlash (xs ++ ys) = dirPrefix xs ++ joinSlash ys := by
  by_cases hx : xs = []
  · subst hx
    rfl
  · rw [joinSlash_append hx hy, dirPrefix_eq hx, List.append_assoc, List.singleton_append]

/-- The pieces of a directory prefix followed by a last piece. -/
theorem splitSlash_dirPrefix_append {segs : List Str} {t : Str} (h : ∀ s ∈ segs, slash ∉ s)
    (ht : slash ∉ t) : splitSlash (dirPrefix segs ++ t) = segs ++ [t] := by
  have hjoin : dirPrefix segs ++ t = joinSlash (segs ++ [t]) := by
    rw [joinSlash_append_eq segs (List.cons_ne_nil t []), joinSlash_singleton]
  rw [hjoin]
  refine splitSlash_joinSlash (fun s hs => ?_) (by simp)
  rcases List.mem_append.mp hs with hs | hs
  · exact h s hs
  · exact (List.mem_singleton.mp hs) ▸ ht

/-- A prefix of a canonical key consists of leading segments of the key and one last piece. -/
theorem prefix_of_key {p : Str} {ks : List Str} (hks : ∀ s ∈ ks, Plain s) (hne : ks ≠ [])
    (h : p <+: joinSlash ks) :
    ∃ qs t rest, rest ≠ [] ∧ ks = qs ++ rest ∧ slash ∉ t ∧ p = dirPrefix qs ++ t := by
  obtain ⟨u, hu⟩ := h
  obtain ⟨qs, t, hsplit⟩ : ∃ qs t, splitSlash p = qs ++ [t] :=
    ⟨_, _, (List.dropLast_append_getLast (splitSlash_ne_nil p)).symm⟩
  have hmem : ∀ s ∈ qs ++ [t], slash ∉ s := fun s hs =>
    slash_not_mem_of_mem_splitSlash (hsplit ▸ hs)
  have ht : slash ∉ t := hmem t (by simp)
  have hp : p = dirPrefix qs ++ t := by
    rw [← joinSlash_splitSlash p, hsplit, joinSlash_append_eq qs (by simp), joinSlash_singleton]
  refine ⟨qs, t, splitSlash (t ++ u), splitSlash_ne_nil _, ?_, ht, hp⟩
  rw [← splitSlash_joinSlash (fun s hs => (hks s hs).slash_not_mem) hne, ← hu, hp, List.append_assoc]
  -- the whole segments end at a separator, so the split of the key passes through it
  by_cases hq : qs = []
  · subst hq
    rfl
  · rw [dirPrefix_eq hq, List.append_assoc, List.singleton_append, splitSlash_append,
      splitSlash_joinSlash (fun s hs => hmem s (by simp [hs])) hq]

namespace PathMapper

variable (m : PathMapper)

/-- A canonical key resolves to its own segments below the root. -/
theorem keyToHdfsPath_joinSlash {ks : List Str} (hks : ∀ s ∈ ks, Plain s) (hne : ks ≠ []) :
    m.keyToHdfsPath (joinSlash ks) = some (absPath (m.rootSegments ++ ks)) := by
  obtain ⟨k, ks, rfl⟩ := List.exists_cons_of_ne_nil hne
  have htrim : trimStartSlashes (joinSlash (k :: ks)) ≠ [] := by
    obtain ⟨hk, hslash, -⟩ := hks k List.mem_cons_self
    obtain ⟨b, k, rfl⟩ := List.exists_cons_of_ne_nil hk
    have hb : b ≠ slash := fun he => hslash (by simp [he])
    have hhead : ∃ tail, joinSlash ((b :: k) :: ks) = b :: tail := by
      by_cases hks : ks = []
      · exact ⟨k, by rw [hks, joinSlash_singleton]⟩
      · exact ⟨_, joinSlash_cons _ hks⟩
    obtain ⟨tail, htail⟩ := hhead
    simp [trimStartSlashes, htail, hb]
  rw [keyToHdfsPath_eq, if_neg htrim, splitSlash_joinSlash (fun s hs => (hks s hs).slash_not_mem) hne,
    normalizeLoop_of_plain _ _ hks]
  simp

/-- A directory key with its trailing separator resolves to the directory. -/
theorem keyToHdfsPath_dirPrefix {qs : List Str} (hqs : ∀ s ∈ qs, Plain s) (hne : qs ≠ []) :
    m.keyToHdfsPath (dirPrefix qs) = some (absPath (m.rootSegments ++ qs)) := by
  have hkey := m.keyToHdfsPath_joinSlash hqs hne
  rw [keyToHdfsPath_eq] at hkey ⊢
  have htrim : trimStartSlashes (joinSlash qs) ≠ [] := by
    intro h
    simp [h] at hkey
  have htrim' : trimStartSlashes (dirPrefix qs) ≠ [] := by
    rw [dirPrefix_eq hne]
    intro h
    refine htrim (List.dropWhile_eq_nil_iff.mpr fun b hb => ?_)
    exact List.dropWhile_eq_nil_iff.mp h b (List.mem_append_left _ hb)
  rw [if_neg htrim] at hkey
  rw [if_neg htrim', ← List.append_nil (dirPrefix qs),
    splitSlash_dirPrefix_append (fun s hs => (hqs s hs).slash_not_mem) (by simp),
    normalizeLoop_append, ← hkey, splitSlash_joinSlash (fun s hs => (hqs s hs).slash_not_mem) hne]
  cases normalizeLoop true m.rootSegments qs with
  | none => rfl
  | some parts => simp [normalizeLoop]

/-- A prefix made of whole segments and a last piece starts at the directory of those segments,
unless it is one of the two refused pieces. -/
theorem listStart_dirPrefix {qs : List Str} {t : Str} (hqs : ∀ s ∈ qs, Plain s) (ht : slash ∉ t)
    (hguard : dirPrefix qs ++ t ≠ dot ∧ dirPrefix qs ++ t ≠ dotdot) :
    m.listStart (dirPrefix qs ++ t) = some (absPath (m.rootSegments ++ qs)) := by
  have hsplit := splitSlash_dirPrefix_append (fun s hs => (hqs s hs).slash_not_mem) ht
  unfold listStart
  simp only [hsplit]
  cases qs with
  | nil =>
    have hfirst : ¬ (t = dot ∨ t = dotdot) := by simpa using hguard
    rw [List.nil_append, List.headD_cons, if_neg hfirst, dirPrefix_nil, List.nil_append,
      (rfindSlash_eq_none_iff t).mpr ht, List.append_nil, m.absPath_rootSegments]
  | cons q qs =>
    obtain ⟨-, -, hdot, hdd⟩ := hqs q List.mem_cons_self
    have hne : q :: qs ≠ [] := by simp
    have hlen : (dirPrefix (q :: qs)).length = (joinSlash (q :: qs)).length + 1 := by
      rw [dirPrefix_eq hne]
      simp
    have hfind : rfindSlash (dirPrefix (q :: qs) ++ t) = some (joinSlash (q :: qs)).length := by
      rw [dirPrefix_eq hne, List.append_assoc, List.singleton_append, rfindSlash_append ht]
    rw [List.cons_append, List.headD_cons, if_neg (by simp [hdot, hdd]), hfind]
    simp only []
    rw [← hlen, List.take_left, m.keyToHdfsPath_dirPrefix hqs hne]

/-- A listing prefix that is not refused loses no matching key: the listing starts at a directory
that lies strictly above the path of the key. -/
theorem listStart_covers {p k : Str} (hguard : p ≠ dot ∧ p ≠ dotdot) (hk : CanonicalKey k)
    (hp : p <+: k) :
    ∃ d hp, m.listStart p = some d ∧ m.keyToHdfsPath k = some hp ∧ StrictlyUnder hp d := by
  obtain ⟨ks, hne, hks, rfl⟩ := hk
  obtain ⟨qs, t, rest, hrest, rfl, ht, rfl⟩ := prefix_of_key hks hne hp
  have hqs : ∀ s ∈ qs, Plain s := fun s hs => hks s (by simp [hs])
  have hroot := m.rootSegments_plain
  have hdir : ∀ s ∈ m.rootSegments ++ qs, Plain s := fun s hs =>
    (List.mem_append.mp hs).elim (hroot s) (hqs s)
  have hfile : ∀ s ∈ m.rootSegments ++ (qs ++ rest), Plain s := fun s hs =>
    (List.mem_append.mp hs).elim (hroot s) (hks s)
  refine ⟨_, _, m.listStart_dirPrefix hqs ht hguard, m.keyToHdfsPath_joinSlash hks hne, ?_⟩
  rw [StrictlyUnder, segmentsOf_absPath hdir, segmentsOf_absPath hfile, ← List.append_assoc]
  exact ⟨List.prefix_append _ _, fun h => hrest (List.self_eq_append_right.mp h)⟩

/-- The two refused prefixes: no listing starts, whatever the root. -/
theorem listStart_refused {p : Str} (h : p = dot ∨ p = dotdot) : m.listStart p = none := by
  rcases h with rfl | rfl <;> rfl

/-- The push-down keeps every canonical key that starts with the prefix exactly when the prefix is
neither `.` nor `..`. -/
theorem listStart_complete_iff (p : Str) :
    (∀ k, CanonicalKey k → p <+: k →
      ∃ d hp, m.listStart p = some d ∧ m.keyToHdfsPath k = some hp ∧ StrictlyUnder hp d) ↔
    p ≠ dot ∧ p ≠ dotdot := by
  constructor
  · intro h
    by_contra hcon
    have hp : p = dot ∨ p = dotdot := by
      by_contra hne
      exact hcon (not_or.mp hne)
    -- a name that only extends the refused piece is canonical
    have hkey : CanonicalKey (p ++ dotdot) := by
      refine ⟨[p ++ dotdot], by simp, ?_, by simp⟩
      rcases hp with rfl | rfl <;> decide
    obtain ⟨d, _, hd, _⟩ := h _ hkey (List.prefix_append _ _)
    rw [m.listStart_refused hp] at hd
    contradiction
  · exact fun hguard k hk hp => m.listStart_covers hguard hk hp

/-- With the root `/data` the prefix `.` starts no listing, although the key `.Trash` starts with
it and names a file under the root. -/
theorem listStart_dot_hides_trash :
    let m := PathMapper.new { hdfsRoot := [0x2F, 0x64, 0x61, 0x74, 0x61], bucketName := [] }
    let trash : Str := [0x2E, 0x54, 0x72, 0x61, 0x73, 0x68]
    CanonicalKey trash ∧ dot <+: trash ∧
      ¬ ∃ d hp, m.listStart dot = some d ∧ m.keyToHdfsPath trash = some hp ∧ StrictlyUnder hp d := by
  refine ⟨⟨[[0x2E, 0x54, 0x72, 0x61, 0x73, 0x68]], by simp, by decide, by simp⟩, by decide, ?_⟩
  rintro ⟨d, _, hd, _⟩
  rw [listStart_refused _ (Or.inl rfl)] at hd
  contradiction

end PathMapper

end HdfsS3Gateway
