import HdfsS3Gateway.Library.Lru
import Mathlib.Algebra.BigOperators.Group.List.Basic
import Mathlib.Algebra.GroupWithZero.Nat

/-!
# Trimming a list from its far end

A bounded cache drops entries from its far end until the rest satisfies its limits. Whatever the
limits are, what remains is the longest part from the front that satisfies them, so nothing is
dropped without need. For a recency list the limits are a number of entries and a total weight.
-/

namespace Lru

section Trim

variable {α : Type} (p : List α → Prop) [DecidablePred p]

/-- Drop at most so many entries from the end, stopping as soon as the rest satisfies `p`. -/
def dropUntil : (fuel : ℕ) → List α → List α
  | 0, xs => xs
  | fuel + 1, xs => if p xs then xs else dropUntil fuel xs.dropLast

/-- Drop entries from the end, stopping as soon as the rest satisfies `p`. -/
def trim (xs : List α) : List α := dropUntil p xs.length xs

variable {p} {xs zs : List α}

/-- Nothing is dropped from a list that satisfies `p`. -/
theorem trim_of (h : p xs) : trim p xs = xs := by
  unfold trim
  cases xs.length with
  | zero => rfl
  | succ n => exact if_pos h

/-- From any other list the last entry is dropped. -/
theorem trim_of_not (h : ¬ p xs) (hne : xs ≠ []) : trim p xs = trim p xs.dropLast := by
  obtain ⟨n, hn⟩ : ∃ n, xs.length = n + 1 :=
    Nat.exists_eq_add_one.mpr (List.length_pos_iff.mpr hne)
  rw [trim, trim, hn, List.length_dropLast, hn, dropUntil, if_neg h]
  rfl

/-- Induction along the entries that trimming drops. -/
theorem trim_induction {motive : List α → Prop} (stop : ∀ xs, p xs → motive xs)
    (nil : motive []) (step : ∀ xs, ¬ p xs → xs ≠ [] → motive xs.dropLast → motive xs)
    (xs : List α) : motive xs := by
  induction hlen : xs.length generalizing xs with
  | zero =>
    rw [List.length_eq_zero_iff.mp hlen]
    exact nil
  | succ n ih =>
    by_cases h : p xs
    · exact stop xs h
    · apply step xs h
      · rintro rfl
        contradiction
      · exact ih _ (by rw [List.length_dropLast, hlen]; rfl)

/-- Only entries at the end are dropped. -/
theorem trim_isPrefix (xs : List α) : trim p xs <+: xs := by
  induction xs using trim_induction (p := p) with
  | stop xs h =>
    refine ⟨[], ?_⟩
    rw [trim_of h, List.append_nil]
  | nil => exact List.prefix_rfl
  | step xs h hne ih =>
    rw [trim_of_not h hne]
    exact ih.trans (List.dropLast_prefix xs)

/-- What remains satisfies the limits, if the empty list does. -/
theorem trim_holds (hnil : p []) (xs : List α) : p (trim p xs) := by
  induction xs using trim_induction (p := p) with
  | stop xs h => rwa [trim_of h]
  | nil => exact hnil
  | step xs h hne ih => rwa [trim_of_not h hne]

/-- Every part from the front that satisfies the limits remains. -/
theorem trim_longest (hzs : zs <+: xs) (h : p zs) : zs <+: trim p xs := by
  induction xs using trim_induction (p := p) with
  | stop xs hxs => rwa [trim_of hxs]
  | nil => exact hzs
  | step xs hxs hne ih =>
    rw [trim_of_not hxs hne]
    apply ih
    have hshort : zs.length < xs.length := by
      apply Nat.lt_of_le_of_ne hzs.length_le
      intro heq
      exact hxs (hzs.eq_of_length heq ▸ h)
    apply List.prefix_of_prefix_length_le hzs (List.dropLast_prefix xs)
    rw [List.length_dropLast]
    omega

/-- Limits that agree on the parts from the front drop the same entries. -/
theorem trim_congr {q : List α → Prop} [DecidablePred q] (h : ∀ zs, zs <+: xs → (p zs ↔ q zs)) :
    trim p xs = trim q xs := by
  induction xs using trim_induction (p := p) with
  | stop xs hxs => rw [trim_of hxs, trim_of ((h xs List.prefix_rfl).mp hxs)]
  | nil => rfl
  | step xs hxs hne ih =>
    have hxs' : ¬ q xs := fun hq => hxs ((h xs List.prefix_rfl).mpr hq)
    rw [trim_of_not hxs hne, trim_of_not hxs' hne]
    exact ih fun zs hzs => h zs (hzs.trans (List.dropLast_prefix xs))

end Trim

/-! ## Weights -/

section Weights

variable {K V : Type} (weight : V → ℕ)

/-- The total weight of the entries. -/
def total (xs : List (K × V)) : ℕ := (xs.map fun x => weight x.2).sum

@[simp] theorem total_nil : total weight ([] : List (K × V)) = 0 := rfl

@[simp] theorem total_cons (x : K × V) (xs : List (K × V)) :
    total weight (x :: xs) = weight x.2 + total weight xs := rfl

/-- The weight of the last entry goes with it. -/
theorem total_dropLast {xs : List (K × V)} {x : K × V} (h : xs.getLast? = some x) :
    total weight xs = total weight xs.dropLast + weight x.2 := by
  obtain ⟨init, rfl⟩ := List.getLast?_eq_some_iff.mp h
  rw [List.dropLast_concat, total, total, List.map_append, List.sum_append]
  simp

/-- A part of a list is no heavier. -/
theorem total_le_of_sublist {xs ys : List (K × V)} (h : xs.Sublist ys) :
    total weight xs ≤ total weight ys := by
  induction h with
  | slnil => exact Nat.le_refl _
  | cons x _ ih => exact Nat.le_add_left_of_le ih
  | cons_cons x _ ih => exact Nat.add_le_add_left ih _

/-- The limits of a bounded cache. -/
def Fits (cap maxWeight : ℕ) (xs : List (K × V)) : Prop :=
  xs.length ≤ cap ∧ total weight xs ≤ maxWeight

instance (cap maxWeight : ℕ) : DecidablePred (Fits (K := K) weight cap maxWeight) :=
  fun _ => inferInstanceAs (Decidable (_ ∧ _))

/-- Within a number of entries that a list does not exceed, one more entry makes room at the end
first, if there is none, and then gives way to the weight only. -/
theorem trim_fits_cons {cap maxWeight : ℕ} (x : K × V) {xs : List (K × V)} (hlen : xs.length ≤ cap)
    (hcap : 0 < cap) : trim (Fits weight cap maxWeight) (x :: xs) =
      trim (fun ys => total weight ys ≤ maxWeight)
        (x :: if xs.length < cap then xs else xs.dropLast) := by
  -- a list within the number of entries is limited by the weight only
  have hweight : ∀ ys : List (K × V), ys.length ≤ cap →
      trim (Fits weight cap maxWeight) ys = trim (fun ys => total weight ys ≤ maxWeight) ys := by
    intro ys hys
    apply trim_congr
    intro zs hzs
    exact and_iff_right (Nat.le_trans hzs.length_le hys)
  split
  · rename_i hroom
    exact hweight _ hroom
  · rename_i hfull
    have hne : xs ≠ [] := by
      rintro rfl
      exact hfull hcap
    have hover : ¬ Fits weight cap maxWeight (x :: xs) := fun h => hfull h.1
    rw [trim_of_not hover (List.cons_ne_nil x xs), List.dropLast_cons_of_ne_nil hne]
    apply hweight
    rw [List.length_cons, List.length_dropLast]
    omega

variable [DecidableEq K] {weight}

/-- Erasing a missing key changes nothing. -/
theorem erase_of_find {k : K} {xs : List (K × V)} (h : find k xs = none) : erase k xs = xs := by
  apply List.filter_eq_self.mpr
  intro x hx
  exact decide_eq_true fun heq => not_mem_of_find h (heq ▸ List.mem_map_of_mem hx)

/-- An erased key is not found. -/
theorem find_erase (k : K) (xs : List (K × V)) : find k (erase k xs) = none := by
  cases h : find k (erase k xs) with
  | none => rfl
  | some v => exact absurd rfl (mem_erase.mp (mem_of_find h)).2

/-- The weight of an erased entry goes with it. -/
theorem total_erase {k : K} {v : V} {xs : List (K × V)} (hnodup : (xs.map Prod.fst).Nodup)
    (h : find k xs = some v) : total weight xs = weight v + total weight (erase k xs) := by
  induction xs with
  | nil => contradiction
  | cons x xs ih =>
    rw [List.map_cons, List.nodup_cons] at hnodup
    rw [find] at h
    split at h
    · rename_i hk
      obtain rfl := Option.some.inj h
      have hrest : erase k (x :: xs) = xs := by
        rw [erase, List.filter_cons_of_neg (by simp [hk])]
        apply List.filter_eq_self.mpr
        intro y hy
        exact decide_eq_true fun heq => hnodup.1 (hk ▸ heq ▸ List.mem_map_of_mem hy)
      rw [hrest, total_cons]
    · rename_i hk
      have hrest : erase k (x :: xs) = x :: erase k xs := List.filter_cons_of_pos (by simp [hk])
      rw [hrest, total_cons, total_cons, ih hnodup.2 h]
      omega

end Weights

end Lru
