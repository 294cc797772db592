import Mathlib.Data.List.Basic

/-!
# Logs of a run

A run appends to a log and never changes what it logged before. `EachAfter` says that every entry
stood in some relation to the log when it was appended, and `Since` is the past operator of
temporal logic: an entry of one kind was logged, and only entries of another kind since. Both are
kept by appending, which is how an invariant of a run mentions them.
-/

namespace History

variable {α : Type}

/-- Every entry satisfies a predicate on what was logged before it. -/
def EachAfter (P : List α → α → Prop) (log : List α) : Prop :=
  ∀ before e after, log = before ++ e :: after → P before e

/-- An entry that satisfies `P` was logged, and since then only entries that satisfy `Q`. -/
def Since (Q P : α → Prop) (log : List α) : Prop :=
  ∃ before e after, log = before ++ e :: after ∧ P e ∧ ∀ r ∈ after, Q r

variable {P Q : α → Prop} {log added : List α} {e : α}

/-- Nothing is logged in an empty log. -/
theorem eachAfter_nil {P : List α → α → Prop} : EachAfter P [] := by
  intro before e after h
  simp at h

/-- An entry may be appended that stands in the relation to the log so far. -/
theorem EachAfter.concat {P : List α → α → Prop} (h : EachAfter P log) (he : P log e) :
    EachAfter P (log ++ [e]) := by
  intro before e' after heq
  rcases List.append_eq_append_iff.mp heq with ⟨rest, rfl, hrest⟩ | ⟨rest, rfl, hrest⟩
  · -- the split is at or after the end of the old log
    cases rest with
    | nil =>
      obtain ⟨rfl, -⟩ := List.cons.inj hrest
      rwa [List.append_nil]
    | cons x rest =>
      have hlen := congrArg List.length hrest
      simp at hlen
  · cases rest with
    | nil =>
      obtain ⟨rfl, -⟩ := List.cons.inj hrest
      rwa [List.append_nil] at he
    | cons x rest =>
      obtain ⟨rfl, -⟩ := List.cons.inj hrest
      exact h before e' rest rfl

/-- The last entry is one since which nothing was logged. -/
theorem since_concat (h : P e) : Since Q P (log ++ [e]) :=
  ⟨log, e, [], rfl, h, by simp⟩

/-- Entries of the permitted kind may be appended. -/
theorem Since.append (h : Since Q P log) (hadded : ∀ r ∈ added, Q r) : Since Q P (log ++ added) := by
  obtain ⟨before, e, after, rfl, he, hafter⟩ := h
  refine ⟨before, e, after ++ added, by simp, he, fun r hr => ?_⟩
  rcases List.mem_append.mp hr with hr | hr
  · exact hafter r hr
  · exact hadded r hr

/-- If no entry that satisfies `P` was appended, one was logged before, and only permitted entries
were appended. -/
theorem Since.of_append (h : Since Q P (log ++ added)) (hadded : ∀ r ∈ added, ¬ P r) :
    Since Q P log ∧ ∀ r ∈ added, Q r := by
  obtain ⟨before, e, after, heq, he, hafter⟩ := h
  rcases List.append_eq_append_iff.mp heq with ⟨rest, rfl, rfl⟩ | ⟨rest, rfl, hrest⟩
  · exact absurd he (hadded e (by simp))
  · cases rest with
    | nil =>
      obtain rfl : added = e :: after := hrest.symm
      exact absurd he (hadded e List.mem_cons_self)
    | cons x rest =>
      obtain ⟨rfl, rfl⟩ := List.cons.inj hrest
      exact ⟨⟨before, e, rest, rfl, he, fun r hr => hafter r (by simp [hr])⟩,
        fun r hr => hafter r (by simp [hr])⟩

/-- The entry that was found may be known to satisfy more. -/
theorem Since.mono {P' : α → Prop} (h : Since Q P log) (hP : ∀ e ∈ log, P e → P' e) :
    Since Q P' log := by
  obtain ⟨before, e, after, rfl, he, hafter⟩ := h
  exact ⟨before, e, after, rfl, hP e (by simp) he, hafter⟩

end History
