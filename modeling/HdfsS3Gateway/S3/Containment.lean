import HdfsS3Gateway.S3.Calls

/-!
# Containment in the root

The access boundary of the service. `Resolves` says what it means to resolve segments from left to
right without popping above `/`, independently of the normalizer's loop. A key maps to a path
exactly when the segments of `root + "/" + key` resolve to segments that extend the root's, and
every path the gateway hands to HDFS is canonical and lies under the root.
-/

namespace HdfsS3Gateway

open Interaction

/-- Resolving the segments on top of a stack gives the result: empty segments and `.` are skipped,
`..` drops the last segment, of which there must be one, and anything else is added. -/
inductive Resolves : List Str → List Str → List Str → Prop
  | done (stack) : Resolves stack [] stack
  | skip {stack segment rest result} (h : segment = [] ∨ segment = dot)
      (hrest : Resolves stack rest result) : Resolves stack (segment :: rest) result
  | pop {stack last rest result} (hrest : Resolves stack rest result) :
      Resolves (stack ++ [last]) (dotdot :: rest) result
  | push {stack segment rest result} (h : segment ≠ [] ∧ segment ≠ dot ∧ segment ≠ dotdot)
      (hrest : Resolves (stack ++ [segment]) rest result) : Resolves stack (segment :: rest) result

/-- The loop of the normalizer computes the resolution of an absolute path. -/
theorem normalizeLoop_eq_some_iff {stack segs result : List Str} :
    normalizeLoop true stack segs = some result ↔ Resolves stack segs result := by
  constructor
  · intro h
    induction segs generalizing stack with
    | nil =>
      obtain rfl := Option.some.inj h
      exact .done stack
    | cons segment rest ih =>
      rw [normalizeLoop] at h
      split_ifs at h with hskip hdd hpop
      · exact .skip hskip (ih h)
      · have hne : stack ≠ [] := fun he => hpop ⟨he, rfl⟩
        rw [hdd, ← List.dropLast_append_getLast hne]
        exact .pop (ih h)
      · exact .push ⟨fun he => hskip (Or.inl he), fun he => hskip (Or.inr he), hdd⟩ (ih h)
  · intro h
    induction h with
    | done stack => rfl
    | skip h _ ih => rw [normalizeLoop, if_pos h, ih]
    | pop _ ih =>
      rw [normalizeLoop, if_neg (by decide), if_pos rfl, if_neg (by simp), List.dropLast_concat, ih]
    | push h _ ih => rw [normalizeLoop, if_neg (by simp [h.1, h.2.1]), if_neg h.2.2, ih]

namespace PathMapper

variable (m : PathMapper)

/-- A path in the root: canonical, and below the root or the root itself, on whole segments. -/
def Contains (p : Str) : Prop := CanonicalAbs p ∧ m.rootSegments <+: segmentsOf p

/-- Segments that extend the root's render to a contained path. -/
theorem contains_absPath {segs : List Str} (h : ∀ s ∈ segs, Plain s) (hp : m.rootSegments <+: segs) :
    m.Contains (absPath segs) := ⟨⟨segs, h, rfl⟩, by rwa [segmentsOf_absPath h]⟩

/-- The path of a key is contained in the root. -/
theorem contains_of_keyToHdfsPath {key p : Str} (h : m.keyToHdfsPath key = some p) :
    m.Contains p := by
  obtain ⟨segs, hplain, rfl, hp⟩ := m.keyToHdfsPath_eq_some h
  exact m.contains_absPath hplain hp

/-- The directory at which a listing starts is contained in the root. -/
theorem contains_of_listStart {pfx d : Str} (h : m.listStart pfx = some d) : m.Contains d := by
  obtain ⟨segs, hplain, rfl, hp⟩ := m.listStart_eq_some h
  exact m.contains_absPath hplain hp

/-- Resolving `root + "/" + key` is resolving the key on top of the root. -/
theorem resolves_root_iff {key : Str} {segs : List Str} :
    Resolves [] (splitSlash (m.root ++ slash :: key)) segs ↔
      normalizeLoop true m.rootSegments (splitSlash key) = some segs := by
  have hroot : normalizeLoop true [] (splitSlash m.root) = some m.rootSegments := by
    have hplain := m.rootSegments_plain
    rw [← m.absPath_rootSegments, splitSlash_absPath hplain, normalizeLoop_nil_cons]
    split
    · rename_i hnil
      rw [hnil]
      rfl
    · rw [normalizeLoop_of_plain _ _ hplain, List.nil_append]
  rw [← normalizeLoop_eq_some_iff, splitSlash_append, normalizeLoop_append, hroot, Option.bind_some]

/-- A key maps to a path exactly when it is not only slashes and `root + "/" + key` resolves to that
path without leaving the root. -/
theorem keyToHdfsPath_eq_some_iff {key p : Str} : m.keyToHdfsPath key = some p ↔
    trimStartSlashes key ≠ [] ∧ ∃ segs, Resolves [] (splitSlash (m.root ++ slash :: key)) segs ∧
      m.rootSegments <+: segs ∧ p = absPath segs := by
  simp only [m.resolves_root_iff]
  rw [keyToHdfsPath_eq]
  by_cases htrim : trimStartSlashes key = []
  · simp [htrim]
  · simp only [htrim, if_false, Option.bind_eq_some_iff, Option.ite_none_right_eq_some,
      List.isPrefixOf_iff_prefix, ne_eq, not_false_eq_true, true_and, Option.some.injEq]
    constructor
    · intro h
      obtain ⟨segs, hloop, hp, heq⟩ := h
      exact ⟨segs, hloop, hp, heq.symm⟩
    · intro h
      obtain ⟨segs, hloop, hp, heq⟩ := h
      exact ⟨segs, hloop, hp, heq.symm⟩

end PathMapper

/-- A call to HDFS on a path that is contained in the root. -/
def Upstream.Contained (m : PathMapper) : Upstream → Prop
  | .getFileInfo path | .read path _ | .listStatus path => m.Contains path
  | .pollRange _ _ _ _ => True

namespace HdfsGateway

variable (self : HdfsGateway)

/-- Every request calls HDFS only on paths in the root. -/
theorem always_contained (req : S3Request) :
    (self.serve req).Always (OnUpstream (Upstream.Contained self.mapper)) := by
  have hpath : ∀ bucket key, self.PathCalls (Upstream.Contained self.mapper) bucket key := by
    intro bucket key path h
    have hc : self.mapper.Contains path := by
      unfold resolvePath at h
      split at h
      · contradiction
      · split at h
        · contradiction
        · rename_i path' hkey
          obtain rfl := Except.ok.inj h
          exact self.mapper.contains_of_keyToHdfsPath hkey
    exact ⟨hc, fun _ => hc⟩
  have hdone : ∀ {α β : Type} (f : α → β) (p : Req α),
      p.Always (OnUpstream (Upstream.Contained self.mapper)) →
      (f <$> p).Always (OnUpstream (Upstream.Contained self.mapper)) := by
    intro α β f p hp
    rw [← bind_pure_comp]
    exact Prog.always_bind hp fun _ _ => trivial
  cases req with
  | headObject input => exact hdone _ _ (self.always_headObject (hpath _ _))
  | getObject input polls =>
    exact hdone _ _ (self.always_serveGet (hpath _ _) fun _ _ _ _ => trivial)
  | listObjectsV2 input fuel =>
    refine hdone _ _ (self.always_listObjectsV2 fuel input ?_ ?_)
    · exact fun args path _ h => self.mapper.contains_of_listStart h
    · exact fun key path h => self.mapper.contains_of_keyToHdfsPath h

/-- Containment: the path of a key is canonical and lies under the root, a key has a path exactly
when it resolves inside the root, a listing starts inside the root, and the gateway hands no other
path to HDFS. -/
theorem paths_contained :
    (∀ key p, self.mapper.keyToHdfsPath key = some p →
      CanonicalAbs p ∧ self.mapper.rootSegments <+: segmentsOf p) ∧
    (∀ key p, self.mapper.keyToHdfsPath key = some p ↔
      PathMapper.trimStartSlashes key ≠ [] ∧
      ∃ segs, Resolves [] (splitSlash (self.mapper.root ++ slash :: key)) segs ∧
        self.mapper.rootSegments <+: segs ∧ p = absPath segs) ∧
    (∀ pfx d, self.mapper.listStart pfx = some d →
      CanonicalAbs d ∧ self.mapper.rootSegments <+: segmentsOf d) ∧
    ∀ req, (self.serve req).Always (OnUpstream (Upstream.Contained self.mapper)) :=
  ⟨fun _ _ h => self.mapper.contains_of_keyToHdfsPath h,
    fun _ _ => self.mapper.keyToHdfsPath_eq_some_iff,
    fun _ _ h => self.mapper.contains_of_listStart h, self.always_contained⟩

end HdfsGateway

end HdfsS3Gateway
