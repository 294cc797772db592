import Mathlib.Data.List.Lex
import Mathlib.Order.Compare
import Mathlib.Order.Lattice

/-!
# Lexicographic order and prefixes

Facts about the lexicographic order on lists over a linear order that concern prefixes: a list is
at most its extensions, the extensions of a list form an interval, and a comparison that is decided
before the end of a list is the same for all its extensions.
-/

namespace Lexicographic

variable {α : Type*} [LinearOrder α]

/-- A comparison decided inside `a` is decided the same way for every extension of `a`. -/
theorem append_lt_of_lt {a b : List α} (h : a < b) (hne : ¬ a <+: b) (x : List α) : a ++ x < b := by
  induction a generalizing b with
  | nil => exact absurd List.nil_prefix hne
  | cons c a ih =>
    cases b with
    | nil => simp at h
    | cons d b =>
      rw [List.cons_append, List.cons_lt_cons_iff]
      rcases List.cons_lt_cons_iff.mp h with hlt | ⟨rfl, hlt⟩
      · exact Or.inl hlt
      · exact Or.inr ⟨rfl, ih hlt fun hp => hne (List.cons_prefix_cons.mpr ⟨rfl, hp⟩)⟩

/-- A list is at most its extensions. -/
theorem le_of_isPrefix {a b : List α} (h : a <+: b) : a ≤ b := le_of_not_gt h.le

/-- The extensions of a list form an interval. -/
theorem prefix_of_between {p b c : List α} (hpc : p <+: c) (hpb : p ≤ b) (hbc : b ≤ c) :
    p <+: b := by
  by_contra hne
  obtain ⟨x, rfl⟩ := hpc
  have hlt : p < b := lt_of_le_of_ne hpb fun heq => hne (heq ▸ List.prefix_rfl)
  exact absurd (append_lt_of_lt hlt hne x) (not_lt.mpr hbc)

/-- A list above `p` that does not extend `p` is above every extension of `p`. -/
theorem extension_lt {p b c : List α} (hpc : p <+: c) (hpb : p ≤ b) (hne : ¬ p <+: b) : c < b := by
  by_contra hle
  exact hne (prefix_of_between hpc hpb (not_lt.mp hle))

/-- A common prefix does not matter for the order. -/
theorem append_lt_append_iff (p : List α) {a b : List α} : p ++ a < p ++ b ↔ a < b := by
  induction p with
  | nil => rfl
  | cons c p ih => simp [ih]

/-- A run of greatest entries is not below any shorter list. -/
theorem not_replicate_lt {top : α} (htop : ∀ a, a ≤ top) {n : ℕ} {b : List α} (h : b.length < n) :
    ¬ List.replicate n top < b := by
  induction b generalizing n with
  | nil => exact List.not_lt_nil _
  | cons c b ih =>
    obtain ⟨n, rfl⟩ : ∃ k, n = k + 1 := ⟨n - 1, by omega⟩
    rw [List.replicate_succ, List.cons_lt_cons_iff]
    rintro (hlt | ⟨-, hlt⟩)
    · exact absurd hlt (not_lt.mpr (htop c))
    · exact ih (by simpa using h) hlt

/-- Compare two entries by the linear order. -/
def cmpEntry (a b : α) : Ordering := cmp a b

/-- Compare two lists entry by entry; a proper prefix comes first. -/
def cmpList : List α → List α → Ordering
  | [], [] => .eq
  | [], _ :: _ => .lt
  | _ :: _, [] => .gt
  | a :: as, b :: bs => (cmpEntry a b).then (cmpList as bs)

/-- Entrywise comparison is the lexicographic order. -/
theorem cmpList_compares (a b : List α) : (cmpList a b).Compares a b := by
  induction a generalizing b with
  | nil => cases b <;> simp [cmpList, Ordering.Compares]
  | cons c a ih =>
    cases b with
    | nil => simp [cmpList, Ordering.Compares]
    | cons d b =>
      rw [cmpList, cmpEntry]
      rcases lt_trichotomy c d with h | rfl | h
      · rw [(cmp_eq_lt_iff c d).mpr h]
        exact List.cons_lt_cons_iff.mpr (Or.inl h)
      · have htail := ih b
        rw [cmp_self_eq_eq]
        cases hcmp : cmpList a b <;> rw [hcmp] at htail
        · exact List.cons_lt_cons_iff.mpr (Or.inr ⟨rfl, htail⟩)
        · exact congrArg (List.cons c) htail
        · exact List.cons_lt_cons_iff.mpr (Or.inr ⟨rfl, htail⟩)
      · rw [(cmp_eq_gt_iff c d).mpr h]
        exact List.cons_lt_cons_iff.mpr (Or.inl h)

@[simp] theorem cmpList_eq_lt_iff (a b : List α) : cmpList a b = .lt ↔ a < b :=
  (cmpList_compares a b).eq_lt

@[simp] theorem cmpList_eq_eq_iff (a b : List α) : cmpList a b = .eq ↔ a = b :=
  (cmpList_compares a b).eq_eq

@[simp] theorem cmpList_eq_gt_iff (a b : List α) : cmpList a b = .gt ↔ b < a :=
  (cmpList_compares a b).eq_gt

/-- Swapping the arguments swaps the comparison. -/
theorem cmpList_swap (a b : List α) : (cmpList a b).swap = cmpList b a := by
  rcases lt_trichotomy a b with h | rfl | h
  · rw [(cmpList_eq_lt_iff a b).mpr h, (cmpList_eq_gt_iff b a).mpr h]
    rfl
  · rw [(cmpList_eq_eq_iff a a).mpr rfl]
    rfl
  · rw [(cmpList_eq_gt_iff a b).mpr h, (cmpList_eq_lt_iff b a).mpr h]
    rfl

end Lexicographic
