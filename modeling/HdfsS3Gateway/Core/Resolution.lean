import HdfsS3Gateway.Core.Path

/-!
# Resolving a path segment by segment

What a path names: its segments are taken from left to right, empty and `.` segments are ignored,
and `..` drops the previous segment, or nothing at the top. Normalization agrees with this wherever
it returns a path; an absolute path that meets `..` at the top has none.

For the configured root that failure is turned into `/`. The exposed tree is then the whole
filesystem, although the string may name a directory.
-/

namespace HdfsS3Gateway

/-- Go to one segment from the directory with the given segments. -/
def resolveStep (stack : List Str) (segment : Str) : List Str :=
  if segment = [] ∨ segment = dot then stack
  else if segment = dotdot then stack.dropLast
  else stack ++ [segment]

/-- Go to each of the segments in turn. -/
def resolve (base segs : List Str) : List Str := segs.foldl resolveStep base

/-- Some `..` is met at the top. -/
def Climbs (base segs : List Str) : Prop :=
  ∃ before, before ++ [dotdot] <+: segs ∧ resolve base before = []

@[simp] theorem resolve_cons (base segs : List Str) (segment : Str) :
    resolve base (segment :: segs) = resolve (resolveStep base segment) segs := rfl

/-- A first segment that is not a `..` at the top climbs no further than the rest does. -/
theorem climbs_cons_iff (base segs : List Str) (segment : Str) :
    Climbs base (segment :: segs) ↔
      segment = dotdot ∧ base = [] ∨ Climbs (resolveStep base segment) segs := by
  constructor
  · rintro ⟨before, hpre, htop⟩
    cases before with
    | nil => exact Or.inl ⟨(List.cons_prefix_cons.mp hpre).1.symm, htop⟩
    | cons s before =>
      obtain ⟨rfl, hrest⟩ := List.cons_prefix_cons.mp hpre
      exact Or.inr ⟨before, hrest, htop⟩
  · rintro (⟨rfl, rfl⟩ | ⟨before, hpre, htop⟩)
    · exact ⟨[], List.cons_prefix_cons.mpr ⟨rfl, List.nil_prefix⟩, rfl⟩
    · exact ⟨segment :: before, List.cons_prefix_cons.mpr ⟨rfl, hpre⟩, htop⟩

theorem not_climbs_nil (base : List Str) : ¬ Climbs base [] := by
  rintro ⟨before, hpre, -⟩
  simp at hpre

/-- Normalization resolves the segments, and gives up exactly when an absolute path climbs. -/
theorem normalizeLoop_eq_resolve (absolute : Bool) (base segs : List Str) :
    (absolute = true → Climbs base segs → normalizeLoop absolute base segs = none) ∧
      ((absolute = true → ¬ Climbs base segs) →
        normalizeLoop absolute base segs = some (resolve base segs)) := by
  induction segs generalizing base with
  | nil => exact ⟨fun _ h => absurd h (not_climbs_nil base), fun _ => rfl⟩
  | cons segment segs ih =>
    rw [climbs_cons_iff, resolve_cons, normalizeLoop]
    have hih := ih (resolveStep base segment)
    unfold resolveStep at hih ⊢
    split_ifs with hskip hdd hpop
    · have hne : segment ≠ dotdot := by
        rintro rfl
        rcases hskip with h | h <;> exact absurd h (by decide)
      simpa [hskip, hne] using hih
    · -- `..` at the top of an absolute path
      exact ⟨fun _ _ => rfl, fun h => absurd (Or.inl ⟨hdd, hpop.1⟩) (h hpop.2)⟩
    · simp only [hdd, if_true, true_and] at hih ⊢
      refine ⟨fun habs hcl => hih.1 habs ?_, fun h => hih.2 fun habs hcl => h habs (Or.inr hcl)⟩
      rcases hcl with hbase | hcl
      · exact absurd ⟨hbase, habs⟩ hpop
      · exact hcl
    · simpa [hskip, hdd] using hih

/-- Whatever normalization returns is the resolution. -/
theorem eq_resolve_of_normalizeLoop {absolute : Bool} {base segs out : List Str}
    (h : normalizeLoop absolute base segs = some out) : out = resolve base segs := by
  have hloop := normalizeLoop_eq_resolve absolute base segs
  by_cases hclimbs : absolute = true ∧ Climbs base segs
  · rw [hloop.1 hclimbs.1 hclimbs.2] at h
    contradiction
  · rw [hloop.2 fun habs hcl => hclimbs ⟨habs, hcl⟩] at h
    exact (Option.some.inj h).symm

/-- Normalizing an absolute path that does not climb resolves it from the top. -/
theorem normalizeAbs_eq_resolve {p : Str} (h : ¬ Climbs [] (splitSlash p)) :
    normalizeAbs (slash :: p) = some (absPath (resolve [] (splitSlash p))) := by
  rw [normalizeAbs_slash_cons, (normalizeLoop_eq_resolve true [] (splitSlash p)).2 fun _ => h]
  rfl

/-- Normalizing an absolute path that climbs fails. -/
theorem normalizeAbs_of_climbs {p : Str} (h : Climbs [] (splitSlash p)) :
    normalizeAbs (slash :: p) = none := by
  rw [normalizeAbs_slash_cons, (normalizeLoop_eq_resolve true [] (splitSlash p)).1 rfl h]
  rfl

end HdfsS3Gateway
