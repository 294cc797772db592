import Mathlib.Data.List.Pairwise
import Mathlib.Data.List.TakeWhile
import Mathlib.Order.Lattice
import Mathlib.Tactic.Basic

/-!
# Binary search for the partition point of a list

`partitionPoint p xs` halves an index interval, keeping the half that still contains the first
entry without `p`. On a list whose entries with `p` all come first it returns how many there are,
so dropping that many entries is filtering them out. On any other list the index has no meaning.
-/

namespace SortedSearch

variable {α : Type*}

/-- Halve `[lo, hi)` until it is empty; the fuel bounds the number of rounds. -/
def partitionPointFrom (p : α → Bool) (xs : List α) : (fuel lo hi : ℕ) → ℕ
  | 0, lo, _ => lo
  | fuel + 1, lo, hi =>
    if lo < hi then
      match xs[lo + (hi - lo) / 2]? with
      | some x =>
        if p x then partitionPointFrom p xs fuel (lo + (hi - lo) / 2 + 1) hi
        else partitionPointFrom p xs fuel lo (lo + (hi - lo) / 2)
      | none => lo
    else lo

/-- The index of the first entry without `p`, by binary search. -/
def partitionPoint (p : α → Bool) (xs : List α) : ℕ :=
  partitionPointFrom p xs xs.length 0 xs.length

/-- The entries with `p` come before all others. -/
def Partitioned (p : α → Bool) (xs : List α) : Prop :=
  xs.Pairwise fun a b => p b = true → p a = true

/-- In a partitioned list exactly the indices below the leading run satisfy `p`. -/
theorem Partitioned.getElem_iff {p : α → Bool} {xs : List α} (h : Partitioned p xs) (i : ℕ)
    (hi : i < xs.length) : p xs[i] = true ↔ i < (xs.takeWhile p).length := by
  induction xs generalizing i with
  | nil => simp at hi
  | cons x xs ih =>
    have htail := List.pairwise_cons.mp h
    by_cases hx : p x = true
    · rw [List.takeWhile_cons_of_pos hx, List.length_cons]
      cases i with
      | zero => simpa using hx
      | succ i =>
        rw [List.getElem_cons_succ, ih htail.2 i (by simpa using hi)]
        omega
    · -- nothing after an entry without `p` has `p`
      have hnone : p (x :: xs)[i] ≠ true := by
        cases i with
        | zero => simpa using hx
        | succ i => exact fun hp => hx (htail.1 _ (List.getElem_mem _) hp)
      simp [List.takeWhile_cons_of_neg hx, hnone]

/-- The search stays on the leading run while that run ends inside the interval. -/
theorem partitionPointFrom_eq {p : α → Bool} {xs : List α} (h : Partitioned p xs)
    (fuel lo hi : ℕ) (hfuel : hi - lo ≤ fuel) (hlo : lo ≤ (xs.takeWhile p).length)
    (hhi : (xs.takeWhile p).length ≤ hi) (hlen : hi ≤ xs.length) :
    partitionPointFrom p xs fuel lo hi = (xs.takeWhile p).length := by
  induction fuel generalizing lo hi with
  | zero =>
    simp only [partitionPointFrom]
    omega
  | succ fuel ih =>
    rw [partitionPointFrom]
    split
    · have hmid : lo + (hi - lo) / 2 < xs.length := by omega
      rw [List.getElem?_eq_getElem hmid]
      simp only []
      have hiff := h.getElem_iff _ hmid
      split
      · exact ih _ _ (by omega) (by rename_i hp; exact hiff.mp hp) hhi hlen
      · exact ih _ _ (by omega) hlo
          (by rename_i hp; exact Nat.le_of_not_lt fun hlt => hp (hiff.mpr hlt)) (by omega)
    · omega

/-- On a partitioned list the search returns the length of the leading run. -/
theorem partitionPoint_eq {p : α → Bool} {xs : List α} (h : Partitioned p xs) :
    partitionPoint p xs = (xs.takeWhile p).length :=
  partitionPointFrom_eq h _ _ _ (by omega) (by omega)
    (List.takeWhile_prefix p).length_le (by omega)

/-- The leading run of a partitioned list is everything with `p`. -/
theorem Partitioned.takeWhile_eq {p : α → Bool} {xs : List α} (h : Partitioned p xs) :
    xs.takeWhile p = xs.filter p ∧ xs.dropWhile p = xs.filter (fun x => !p x) := by
  induction xs with
  | nil => simp
  | cons x xs ih =>
    have htail := List.pairwise_cons.mp h
    by_cases hx : p x = true
    · simp [List.takeWhile_cons_of_pos hx, List.dropWhile_cons_of_pos hx, hx, ih htail.2]
    · have hnone : ∀ y ∈ xs, p y = false := fun y hy =>
        Bool.eq_false_iff.mpr fun hp => hx (htail.1 y hy hp)
      have hp : xs.filter p = [] := List.filter_eq_nil_iff.mpr fun y hy => by simp [hnone y hy]
      have hnp : xs.filter (fun y => !p y) = xs :=
        List.filter_eq_self.mpr fun y hy => by simp [hnone y hy]
      simp [List.takeWhile_cons_of_neg hx, List.dropWhile_cons_of_neg hx, hx, hp, hnp]

/-- Dropping up to the partition point filters the leading entries out. -/
theorem drop_partitionPoint {p : α → Bool} {xs : List α} (h : Partitioned p xs) :
    xs.drop (partitionPoint p xs) = xs.filter (fun x => !p x) := by
  have hdrop : (xs.takeWhile p ++ xs.dropWhile p).drop (xs.takeWhile p).length = xs.dropWhile p :=
    List.drop_left
  rw [partitionPoint_eq h, ← h.takeWhile_eq.2]
  rwa [List.takeWhile_append_dropWhile] at hdrop

/-- Taking up to the partition point keeps the leading entries. -/
theorem take_partitionPoint {p : α → Bool} {xs : List α} (h : Partitioned p xs) :
    xs.take (partitionPoint p xs) = xs.filter p := by
  rw [partitionPoint_eq h, ← h.takeWhile_eq.1]
  exact (List.prefix_iff_eq_take.mp (List.takeWhile_prefix p)).symm

/-- Dropping up to the later of two partition points leaves the entries without either property. -/
theorem mem_drop_max_partitionPoint {p q : α → Bool} {xs : List α} (hp : Partitioned p xs)
    (hq : Partitioned q xs) {x : α} :
    x ∈ xs.drop (max (partitionPoint p xs) (partitionPoint q xs)) ↔
      x ∈ xs ∧ p x = false ∧ q x = false := by
  have hmem : ∀ {r : α → Bool}, Partitioned r xs →
      (x ∈ xs.drop (partitionPoint r xs) ↔ x ∈ xs ∧ r x = false) := fun hr => by
    rw [drop_partitionPoint hr, List.mem_filter, Bool.not_eq_true']
  constructor
  · intro h
    have h1 := (hmem hp).mp (List.drop_subset_drop_left xs (Nat.le_max_left _ _) h)
    have h2 := (hmem hq).mp (List.drop_subset_drop_left xs (Nat.le_max_right _ _) h)
    exact ⟨h1.1, h1.2, h2.2⟩
  · rintro ⟨hx, hpx, hqx⟩
    rcases Nat.le_total (partitionPoint p xs) (partitionPoint q xs) with hle | hle
    · rw [Nat.max_eq_right hle]
      exact (hmem hq).mpr ⟨hx, hqx⟩
    · rw [Nat.max_eq_left hle]
      exact (hmem hp).mpr ⟨hx, hpx⟩

/-- The partition point counts the entries with `p`. -/
theorem partitionPoint_eq_length_filter {p : α → Bool} {xs : List α} (h : Partitioned p xs) :
    partitionPoint p xs = (xs.filter p).length := by
  rw [partitionPoint_eq h, h.takeWhile_eq.1]

/-! ## Sorting by a key -/

section SortByKey

variable {β : Type*} [LinearOrder β]

/-- A merge sort whose comparison is the order of a key returns the entries in the order of their
keys. -/
theorem pairwise_mergeSort_key {le : α → α → Bool} {key : α → β}
    (hle : ∀ a b, le a b = true ↔ key a ≤ key b) (xs : List α) :
    (xs.mergeSort le).Pairwise fun a b => key a ≤ key b := by
  have htrans : ∀ a b c, le a b = true → le b c = true → le a c = true := by
    intro a b c
    rw [hle, hle, hle]
    exact le_trans
  have htotal : ∀ a b, (le a b || le b a) = true := by
    intro a b
    rw [Bool.or_eq_true, hle, hle]
    exact le_total _ _
  exact (List.pairwise_mergeSort htrans htotal xs).imp fun h => (hle _ _).mp h

/-- A bound on a key partitions a list in the order of that key. -/
theorem partitioned_of_key {p : α → Bool} {key : α → β} {below : β → Prop}
    (hp : ∀ a, p a = true ↔ below (key a)) (hbelow : ∀ x y, x ≤ y → below y → below x)
    {xs : List α} (h : xs.Pairwise fun a b => key a ≤ key b) : Partitioned p xs :=
  h.imp fun hab hb => (hp _).mpr (hbelow _ _ hab ((hp _).mp hb))

/-- In a sorted list the entries up to one are at most it, and the later ones are greater. -/
theorem sorted_around {key : α → β} {xs : List α} (hxs : xs.Pairwise fun a b => key a < key b)
    {n : ℕ} {a : α} (ha : xs[n]? = some a) :
    (∀ b ∈ xs.take (n + 1), key b ≤ key a) ∧ ∀ b ∈ xs.drop (n + 1), key a < key b := by
  obtain ⟨hn, rfl⟩ := List.getElem?_eq_some_iff.mp ha
  rw [← List.take_append_drop n xs, List.drop_eq_getElem_cons hn, List.pairwise_append,
    List.pairwise_cons] at hxs
  obtain ⟨-, ⟨hlater, -⟩, hcross⟩ := hxs
  refine ⟨fun b hb => ?_, hlater⟩
  rw [List.take_succ_eq_append_getElem hn] at hb
  rcases List.mem_append.mp hb with hb | hb
  · exact le_of_lt (hcross b hb _ List.mem_cons_self)
  · rw [List.mem_singleton.mp hb]

/-- The lists agree up to an entry of the first one if all its entries are in the second, and what
the second has besides them comes after that entry. -/
theorem take_eq_take {key : α → β} {xs ys : List α} (hxs : xs.Pairwise fun a b => key a < key b)
    (hys : ys.Pairwise fun a b => key a < key b) (hsub : ∀ a ∈ xs, a ∈ ys) {n : ℕ} {last : α}
    (hlast : xs[n]? = some last) (hnew : ∀ b ∈ ys, b ∉ xs → key last < key b) :
    ys.take (n + 1) = xs.take (n + 1) := by
  induction xs generalizing ys n with
  | nil => simp at hlast
  | cons a xs ih =>
    cases ys with
    | nil => exact absurd (hsub a List.mem_cons_self) List.not_mem_nil
    | cons b ys =>
      obtain ⟨hax, hxt⟩ := List.pairwise_cons.mp hxs
      obtain ⟨hby, hyt⟩ := List.pairwise_cons.mp hys
      have halast : key a ≤ key last := by
        rcases List.mem_cons.mp (List.mem_of_getElem? hlast) with rfl | hmem
        · exact le_refl _
        · exact le_of_lt (hax last hmem)
      have hba : b ≠ a → key b < key a := fun hne =>
        (List.mem_cons.mp (hsub a List.mem_cons_self)).elim (fun h => absurd h.symm hne) (hby a)
      -- the heads agree: the smaller one would be new, or out of order
      have hhead : b = a := by
        by_contra hne
        by_cases hmem : b ∈ a :: xs
        · rcases List.mem_cons.mp hmem with heq | hmem
          · exact hne heq
          · exact lt_asymm (hba hne) (hax b hmem)
        · exact lt_asymm (hba hne) (lt_of_le_of_lt halast (hnew b List.mem_cons_self hmem))
      subst hhead
      cases n with
      | zero => rfl
      | succ n =>
        have hsub' : ∀ x ∈ xs, x ∈ ys := fun x hx => by
          rcases List.mem_cons.mp (hsub x (List.mem_cons_of_mem _ hx)) with rfl | hmem
          · exact absurd (hax x hx) (lt_irrefl _)
          · exact hmem
        have hnew' : ∀ y ∈ ys, y ∉ xs → key last < key y := fun y hy hyx => by
          apply hnew y (List.mem_cons_of_mem _ hy)
          intro hmem
          rcases List.mem_cons.mp hmem with rfl | hmem
          · exact lt_irrefl _ (hby y hy)
          · exact hyx hmem
        rw [List.take_succ_cons, List.take_succ_cons, ih hxt hyt hsub' (by simpa using hlast) hnew']

end SortByKey

end SortedSearch
