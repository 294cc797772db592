import Mathlib.Data.List.Basic

/-!
# Lines of a stream

A text is cut into its lines, each with the separator that ends it, and the rest after the last
separator. The lines of a text do not depend on the pieces in which it arrives: what is cut from its
beginning stays cut, and only the rest is continued by the text that follows.
-/

namespace Lines

variable {α : Type} [DecidableEq α] (sep : α)

/-- The lines and the rest of a text that continues a line. -/
def splitFrom (held : List α) : List α → List (List α) × List α
  | [] => ([], held)
  | a :: text =>
    if a = sep then ((held ++ [a]) :: (splitFrom [] text).1, (splitFrom [] text).2)
    else splitFrom (held ++ [a]) text

/-- The lines and the rest of a text. -/
def split (text : List α) : List (List α) × List α := splitFrom sep [] text

variable {sep} {held text body : List α}

/-- Text without a separator only continues the line. -/
theorem splitFrom_of_notMem (h : sep ∉ text) : splitFrom sep held text = ([], held ++ text) := by
  induction text generalizing held with
  | nil => rw [splitFrom, List.append_nil]
  | cons a text ih =>
    rw [List.mem_cons, not_or] at h
    rw [splitFrom, if_neg (Ne.symm h.1), ih h.2, List.append_assoc, List.singleton_append]

/-- The parts of a text are split one after the other. -/
theorem splitFrom_append (more : List α) : splitFrom sep held (text ++ more) =
    ((splitFrom sep held text).1 ++ (splitFrom sep (splitFrom sep held text).2 more).1,
      (splitFrom sep (splitFrom sep held text).2 more).2) := by
  induction text generalizing held with
  | nil => rfl
  | cons a text ih =>
    rw [List.cons_append, splitFrom, splitFrom]
    split
    · rw [ih]
      rfl
    · exact ih

/-- A line that is held continues. -/
theorem splitFrom_eq_split (h : sep ∉ held) : splitFrom sep held text = split sep (held ++ text) := by
  rw [split, splitFrom_append, splitFrom_of_notMem h]
  rfl

/-- The rest has no separator. -/
theorem notMem_rest (h : sep ∉ held) : sep ∉ (splitFrom sep held text).2 := by
  induction text generalizing held with
  | nil => exact h
  | cons a text ih =>
    rw [splitFrom]
    split
    · exact ih List.not_mem_nil
    · rename_i hne
      apply ih
      simpa [h] using Ne.symm hne

/-- What is cut from the beginning of a text stays cut. -/
theorem split_append (more : List α) : split sep (text ++ more) =
    ((split sep text).1 ++ (split sep ((split sep text).2 ++ more)).1,
      (split sep ((split sep text).2 ++ more)).2) := by
  have hrest : sep ∉ (split sep text).2 := notMem_rest List.not_mem_nil
  rw [← splitFrom_eq_split hrest]
  exact splitFrom_append more

theorem split_of_notMem (h : sep ∉ text) : split sep text = ([], text) := splitFrom_of_notMem h

/-- Whole lines leave no rest. -/
theorem split_concat_rest : (split sep (text ++ [sep])).2 = [] := by
  rw [split, splitFrom_append, splitFrom, if_pos rfl]
  rfl

/-- The first line ends with the first separator. -/
theorem split_of_findIdx? {i : ℕ} (h : text.findIdx? (· = sep) = some i) : split sep text =
    (text.take (i + 1) :: (split sep (text.drop (i + 1))).1, (split sep (text.drop (i + 1))).2) := by
  obtain ⟨hlt, hsep, hbefore⟩ := List.findIdx?_eq_some_iff_getElem.mp h
  have hbody : sep ∉ text.take i := by
    intro hmem
    obtain ⟨j, hj, heq⟩ := List.mem_take_iff_getElem.mp hmem
    exact absurd (decide_eq_true heq) (hbefore j (by omega))
  have hcut : text = text.take i ++ sep :: text.drop (i + 1) := by
    rw [← of_decide_eq_true hsep, ← List.drop_eq_getElem_cons hlt, List.take_append_drop]
  have hline : text.take (i + 1) = text.take i ++ [sep] := by
    rw [List.take_succ_eq_append_getElem hlt, of_decide_eq_true hsep]
  rw [hline]
  conv_lhs => rw [hcut, split, splitFrom_append, splitFrom_of_notMem hbody, splitFrom, if_pos rfl]
  rfl

theorem split_of_findIdx?_none (h : text.findIdx? (· = sep) = none) : sep ∉ text := by
  intro hmem
  simpa using List.findIdx?_eq_none_iff.mp h sep hmem

end Lines
