import HdfsS3Gateway.Config
import Mathlib.Data.List.Infix

/-!
# S3 key and HDFS path translation

A key is resolved against one configured root by joining, splitting at `/` and collapsing `.` and
`..` on a stack. The stack never holds anything but plain segments, and `PathMapper` carries the
proof that its root is such a path, so every path it returns is canonical.

The textual root check of the source is exactly the prefix relation on segments
(`underRoot_absPath`), and `keyToHdfsPath_eq` states the whole translation on segments. Everything
proved about paths elsewhere goes through that equation.
-/

namespace HdfsS3Gateway

/-! ## Canonical paths -/

/-- A segment of a canonical path: a file name. -/
def Plain (s : Str) : Prop := s ≠ [] ∧ slash ∉ s ∧ s ≠ dot ∧ s ≠ dotdot

instance (s : Str) : Decidable (Plain s) := inferInstanceAs (Decidable (_ ∧ _ ∧ _ ∧ _))

/-- The absolute path with the given segments; `/` when there are none. -/
def absPath (segs : List Str) : Str := slash :: joinSlash segs

/-- An absolute path without empty, `.` or `..` segments and without a trailing slash. -/
def CanonicalAbs (p : Str) : Prop := ∃ segs, (∀ s ∈ segs, Plain s) ∧ p = absPath segs

/-- The nonempty segments of a path. -/
def segmentsOf (p : Str) : List Str := (splitSlash p).filter (fun s => !s.isEmpty)

theorem Plain.ne_nil {s : Str} (h : Plain s) : s ≠ [] := h.1

theorem Plain.slash_not_mem {s : Str} (h : Plain s) : slash ∉ s := h.2.1

/-- A canonical path splits into an empty first segment and its own segments. -/
theorem splitSlash_absPath {segs : List Str} (h : ∀ s ∈ segs, Plain s) :
    splitSlash (absPath segs) = [] :: if segs = [] then [[]] else segs := by
  rw [absPath, splitSlash_slash_cons]
  split
  · rename_i hnil
    rw [hnil, joinSlash_nil, splitSlash_nil]
  · rename_i hne
    rw [splitSlash_joinSlash (fun s hs => (h s hs).slash_not_mem) hne]

/-- A canonical path has exactly the segments it was built from. -/
@[simp] theorem segmentsOf_absPath {segs : List Str} (h : ∀ s ∈ segs, Plain s) :
    segmentsOf (absPath segs) = segs := by
  have hfilter : segs.filter (fun s => !s.isEmpty) = segs :=
    List.filter_eq_self.mpr fun s hs => by simpa using (h s hs).ne_nil
  rw [segmentsOf, splitSlash_absPath h]
  split <;> simp_all

/-- Different canonical paths have different segments. -/
theorem absPath_injective {xs ys : List Str} (hx : ∀ s ∈ xs, Plain s) (hy : ∀ s ∈ ys, Plain s)
    (h : absPath xs = absPath ys) : xs = ys := by
  rw [← segmentsOf_absPath hx, ← segmentsOf_absPath hy, h]

/-! ## Normalization -/

/-- The segment loop of `normalize_abs`; `parts` is the vector built so far. -/
def normalizeLoop (absolute : Bool) (parts : List Str) : List Str → Option (List Str)
  | [] => some parts
  | segment :: rest =>
    if segment = [] ∨ segment = dot then normalizeLoop absolute parts rest
    else if segment = dotdot then
      -- popping an empty vector leaves it empty; only an absolute path reports the escape
      if parts = [] ∧ absolute then none else normalizeLoop absolute parts.dropLast rest
    else normalizeLoop absolute (parts ++ [segment]) rest

/-- `normalize_abs`: collapse `.` and `..`, or `none` if an absolute path escapes its root. -/
def normalizeAbs (path : Str) : Option Str :=
  let absolute := startsWith path [slash]
  (normalizeLoop absolute [] (splitSlash path)).map fun parts =>
    if absolute then absPath parts else joinSlash parts

/-- `normalize_root`: make the configured root absolute and normalize it. -/
def normalizeRoot (root : Str) : Str :=
  let rooted := if startsWith root [slash] then root else slash :: root
  (normalizeAbs rooted).getD [slash]

/-- `join_root`: no `//` boundary when the root is `/`. -/
def joinRoot (root key : Str) : Str :=
  if root = [slash] then slash :: key else root ++ slash :: key

/-- The loop never puts anything but plain segments on its stack. -/
theorem normalizeLoop_plain {absolute : Bool} {parts segs out : List Str}
    (hparts : ∀ s ∈ parts, Plain s) (hsegs : ∀ s ∈ segs, slash ∉ s)
    (h : normalizeLoop absolute parts segs = some out) : ∀ s ∈ out, Plain s := by
  induction segs generalizing parts with
  | nil =>
    obtain rfl := Option.some.inj h
    exact hparts
  | cons segment rest ih =>
    have hrest : ∀ s ∈ rest, slash ∉ s := fun s hs => hsegs s (List.mem_cons_of_mem _ hs)
    rw [normalizeLoop] at h
    split_ifs at h with hskip hdd hpop
    · exact ih hparts hrest h
    · exact ih (fun s hs => hparts s (List.mem_of_mem_dropLast hs)) hrest h
    · refine ih (fun s hs => ?_) hrest h
      rcases List.mem_append.mp hs with hs | hs
      · exact hparts s hs
      · obtain rfl := List.mem_singleton.mp hs
        exact ⟨fun he => hskip (Or.inl he), hsegs _ List.mem_cons_self,
          fun he => hskip (Or.inr he), hdd⟩

/-- The loop handles a concatenation one part after the other. -/
theorem normalizeLoop_append (absolute : Bool) (parts xs ys : List Str) :
    normalizeLoop absolute parts (xs ++ ys) =
      (normalizeLoop absolute parts xs).bind fun p => normalizeLoop absolute p ys := by
  induction xs generalizing parts with
  | nil => rfl
  | cons x xs ih =>
    rw [List.cons_append, normalizeLoop, normalizeLoop]
    split_ifs <;> simp [ih]

/-- Plain segments are pushed unchanged. -/
theorem normalizeLoop_of_plain (absolute : Bool) (parts : List Str) {segs : List Str}
    (h : ∀ s ∈ segs, Plain s) : normalizeLoop absolute parts segs = some (parts ++ segs) := by
  induction segs generalizing parts with
  | nil => simp [normalizeLoop]
  | cons s segs ih =>
    obtain ⟨hnil, -, hdot, hdd⟩ := h s List.mem_cons_self
    rw [normalizeLoop, if_neg (by simp [hnil, hdot]), if_neg hdd,
      ih _ fun t ht => h t (List.mem_cons_of_mem _ ht)]
    simp

/-- An empty segment is ignored. -/
@[simp] theorem normalizeLoop_nil_cons (absolute : Bool) (parts rest : List Str) :
    normalizeLoop absolute parts ([] :: rest) = normalizeLoop absolute parts rest := by
  rw [normalizeLoop, if_pos (Or.inl rfl)]

/-- On an absolute path normalization runs the loop and renders its stack. -/
theorem normalizeAbs_slash_cons (p : Str) :
    normalizeAbs (slash :: p) = (normalizeLoop true [] (splitSlash p)).map absPath := by
  have habs : startsWith (slash :: p) [slash] = true := by simp
  simp [normalizeAbs, habs]

/-- A canonical path is its own normal form. -/
theorem normalizeAbs_absPath {segs : List Str} (h : ∀ s ∈ segs, Plain s) :
    normalizeAbs (absPath segs) = some (absPath segs) := by
  rw [absPath, normalizeAbs_slash_cons]
  by_cases hne : segs = []
  · subst hne
    rfl
  · rw [splitSlash_joinSlash (fun s hs => (h s hs).slash_not_mem) hne, normalizeLoop_of_plain _ _ h]
    rfl

/-- Whatever normalization returns for an absolute path is canonical. -/
theorem normalizeAbs_canonical {p q : Str} (hp : startsWith p [slash] = true)
    (h : normalizeAbs p = some q) : CanonicalAbs q := by
  simp only [normalizeAbs, hp, if_true] at h
  obtain ⟨parts, hloop, rfl⟩ := Option.map_eq_some_iff.mp h
  exact ⟨parts, normalizeLoop_plain (by simp)
    (fun s hs => slash_not_mem_of_mem_splitSlash hs) hloop, rfl⟩

/-- The root computed from any configured string is canonical. -/
theorem normalizeRoot_canonical (root : Str) : CanonicalAbs (normalizeRoot root) := by
  have hrooted : startsWith (if startsWith root [slash] then root else slash :: root) [slash] = true := by
    split
    · assumption
    · simp
  change CanonicalAbs ((normalizeAbs (if startsWith root [slash] then root else slash :: root)).getD
    [slash])
  cases h : normalizeAbs (if startsWith root [slash] then root else slash :: root) with
  | none => exact ⟨[], by simp, rfl⟩
  | some q => exact normalizeAbs_canonical hrooted h

/-! ## The mapper -/

/-- `PathMapper`: a bucket name and a canonical root. -/
structure PathMapper where
  root : Str
  bucket : Str
  root_canonical : CanonicalAbs root

namespace PathMapper

/-- `PathMapper::new`. -/
def new (config : Config) : PathMapper :=
  ⟨normalizeRoot config.hdfsRoot, config.bucketName, normalizeRoot_canonical _⟩

/-- The segments of the root. -/
def rootSegments (m : PathMapper) : List Str := segmentsOf m.root

/-- `key.trim_start_matches('/')`. -/
def trimStartSlashes (key : Str) : Str := key.dropWhile (· == slash)

/-- The textual check that a normalized path is the root or lies under it. -/
def underRoot (m : PathMapper) (normalized : Str) : Bool :=
  if m.root = [slash] then startsWith normalized [slash]
  else normalized == m.root || startsWith normalized (m.root ++ [slash])

/-- `key_to_hdfs_path`: resolve a key to an absolute path, or `none` if it is empty or escapes. -/
def keyToHdfsPath (m : PathMapper) (key : Str) : Option Str :=
  let key := trimStartSlashes key
  if key = [] then none
  else
    match normalizeAbs (joinRoot m.root key) with
    | none => none
    | some normalized => if m.underRoot normalized then some normalized else none

/-- `list_start`: the directory at which a listing of `pfx` starts. -/
def listStart (m : PathMapper) (pfx : Str) : Option Str :=
  let first := (splitSlash pfx).headD []
  if first = dot ∨ first = dotdot then none
  else
    match rfindSlash pfx with
    | none => some m.root
    | some i => m.keyToHdfsPath (pfx.take (i + 1))

/-- `hdfs_path_to_key`: the key of an absolute path, or `none` if it is not under the root. -/
def hdfsPathToKey (m : PathMapper) (hdfsPath : Str) : Option Str :=
  match normalizeAbs hdfsPath with
  | none => none
  | some normalized =>
    if normalized = m.root then some []
    else
      let pfx := if m.root = [slash] then [slash] else m.root ++ [slash]
      if startsWith normalized pfx then some (normalized.drop pfx.length) else none

variable (m : PathMapper)

theorem rootSegments_plain : ∀ s ∈ m.rootSegments, Plain s := by
  obtain ⟨segs, hplain, hroot⟩ := m.root_canonical
  rwa [rootSegments, hroot, segmentsOf_absPath hplain]

theorem absPath_rootSegments : absPath m.rootSegments = m.root := by
  obtain ⟨segs, hplain, hroot⟩ := m.root_canonical
  rw [rootSegments, hroot, segmentsOf_absPath hplain]

/-- The root is `/` exactly when it has no segments. -/
theorem root_eq_slash_iff : m.root = [slash] ↔ m.rootSegments = [] := by
  rw [← absPath_rootSegments]
  constructor
  · intro h
    exact absPath_injective m.rootSegments_plain (by simp) h
  · intro h
    rw [h]
    rfl

/-- A proper extension of a nonempty list of segments extends the rendered path by a slash. -/
theorem absPath_slash_prefix_iff {xs ys : List Str} (hx : ∀ s ∈ xs, Plain s)
    (hy : ∀ s ∈ ys, Plain s) (hne : xs ≠ []) :
    absPath xs ++ [slash] <+: absPath ys ↔ xs <+: ys ∧ xs ≠ ys := by
  constructor
  · rintro ⟨t, ht⟩
    have hsplit := congrArg splitSlash ht
    rw [List.append_assoc, List.singleton_append, splitSlash_append, splitSlash_absPath hx,
      splitSlash_absPath hy, if_neg hne] at hsplit
    simp only [List.cons_append, List.cons.injEq, true_and] at hsplit
    split at hsplit
    · -- `/` has no room below a nonempty path
      obtain ⟨x, xs, rfl⟩ := List.exists_cons_of_ne_nil hne
      have hlen := congrArg List.length hsplit
      have ht := splitSlash_ne_nil t
      have hpos := List.length_pos_of_ne_nil ht
      simp only [List.length_append, List.length_cons, List.length_nil] at hlen
      omega
    · refine ⟨⟨_, hsplit⟩, ?_⟩
      rintro rfl
      exact splitSlash_ne_nil t (List.self_eq_append_right.mp hsplit.symm)
  · rintro ⟨⟨zs, rfl⟩, hneq⟩
    have hz : zs ≠ [] := by
      rintro rfl
      simp at hneq
    rw [absPath, absPath, joinSlash_append hne hz]
    exact ⟨joinSlash zs, by simp⟩

/-- The textual root check is the prefix relation on segments. -/
theorem underRoot_absPath {segs : List Str} (h : ∀ s ∈ segs, Plain s) :
    m.underRoot (absPath segs) = true ↔ m.rootSegments <+: segs := by
  unfold underRoot
  split
  · rename_i hroot
    rw [(m.root_eq_slash_iff.mp hroot)]
    simp [absPath]
  · rename_i hroot
    have hne : m.rootSegments ≠ [] := fun he => hroot (m.root_eq_slash_iff.mpr he)
    rw [Bool.or_eq_true, beq_iff_eq, startsWith_iff, ← m.absPath_rootSegments,
      absPath_slash_prefix_iff m.rootSegments_plain h hne]
    constructor
    · rintro (heq | ⟨hp, -⟩)
      · rw [absPath_injective h m.rootSegments_plain heq]
      · exact hp
    · intro hp
      by_cases heq : m.rootSegments = segs
      · exact Or.inl (by rw [heq])
      · exact Or.inr ⟨hp, heq⟩

/-- Leading slashes contribute only empty segments, so trimming them changes no resolution. -/
theorem normalizeLoop_trimStartSlashes (absolute : Bool) (parts : List Str) (key : Str) :
    normalizeLoop absolute parts (splitSlash (trimStartSlashes key)) =
      normalizeLoop absolute parts (splitSlash key) := by
  induction key with
  | nil => rfl
  | cons b key ih =>
    by_cases hb : b = slash
    · subst hb
      rw [splitSlash_slash_cons, normalizeLoop_nil_cons, ← ih]
      simp [trimStartSlashes]
    · simp [trimStartSlashes, hb]

/-- Joining a key to the root and normalizing resolves the key's segments on top of the root's. -/
theorem normalizeAbs_joinRoot (key : Str) :
    normalizeAbs (joinRoot m.root key) =
      (normalizeLoop true m.rootSegments (splitSlash key)).map absPath := by
  unfold joinRoot
  split
  · rename_i hroot
    rw [normalizeAbs_slash_cons, m.root_eq_slash_iff.mp hroot]
  · rename_i hroot
    have hne : m.rootSegments ≠ [] := fun he => hroot (m.root_eq_slash_iff.mpr he)
    rw [← m.absPath_rootSegments, absPath, List.cons_append, normalizeAbs_slash_cons,
      splitSlash_append, splitSlash_joinSlash (fun s hs => (m.rootSegments_plain s hs).slash_not_mem) hne,
      normalizeLoop_append, normalizeLoop_of_plain _ _ m.rootSegments_plain]
    rfl

/-- The whole translation on segments: a nonempty key is resolved on top of the root's segments,
and accepted when the result still extends them. -/
theorem keyToHdfsPath_eq (key : Str) :
    m.keyToHdfsPath key =
      if trimStartSlashes key = [] then none
      else (normalizeLoop true m.rootSegments (splitSlash key)).bind fun segs =>
        if m.rootSegments.isPrefixOf segs then some (absPath segs) else none := by
  unfold keyToHdfsPath
  simp only []
  split
  · rfl
  · rw [normalizeAbs_joinRoot, normalizeLoop_trimStartSlashes]
    cases hloop : normalizeLoop true m.rootSegments (splitSlash key) with
    | none => rfl
    | some segs =>
      have hplain := normalizeLoop_plain m.rootSegments_plain
        (fun s hs => slash_not_mem_of_mem_splitSlash hs) hloop
      have hiff : m.underRoot (absPath segs) = m.rootSegments.isPrefixOf segs := by
        rw [Bool.eq_iff_iff, m.underRoot_absPath hplain, List.isPrefixOf_iff_prefix]
      simp [hiff]

/-- A returned path is canonical and extends the root segment by segment. -/
theorem keyToHdfsPath_eq_some {key p : Str} (h : m.keyToHdfsPath key = some p) :
    ∃ segs, (∀ s ∈ segs, Plain s) ∧ p = absPath segs ∧ m.rootSegments <+: segs := by
  rw [keyToHdfsPath_eq] at h
  split at h
  · contradiction
  · obtain ⟨segs, hloop, hsegs⟩ := Option.bind_eq_some_iff.mp h
    split at hsegs
    · rename_i hp
      exact ⟨segs, normalizeLoop_plain m.rootSegments_plain
        (fun s hs => slash_not_mem_of_mem_splitSlash hs) hloop, (Option.some.inj hsegs).symm,
        List.isPrefixOf_iff_prefix.mp hp⟩
    · contradiction

/-- A directory at which a listing starts is canonical and extends the root segment by segment. -/
theorem listStart_eq_some {pfx d : Str} (h : m.listStart pfx = some d) :
    ∃ segs, (∀ s ∈ segs, Plain s) ∧ d = absPath segs ∧ m.rootSegments <+: segs := by
  unfold listStart at h
  simp only [] at h
  split at h
  · contradiction
  · split at h
    · obtain rfl := Option.some.inj h
      exact ⟨m.rootSegments, m.rootSegments_plain, m.absPath_rootSegments.symm, List.prefix_rfl⟩
    · exact m.keyToHdfsPath_eq_some h

end PathMapper

end HdfsS3Gateway
