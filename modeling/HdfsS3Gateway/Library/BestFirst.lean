import Mathlib.Data.List.Nodup
import Mathlib.Data.List.Perm.Basic
import Mathlib.Data.List.Sort
import Mathlib.Order.Defs.LinearOrder

/-!
# Best-first enumeration

A frontier of items, each with some results under it, is worked off item by item. An item may come
first among its own results, and the others are shared out to the items that replace it. If the item
taken is always one with a least result, the results come out in the order of their keys, each once:
`Yields` says which ones are still to come, and there is one rule for each kind of step.

Where the results under an item are those of one list that lie below it, sharing them out means that
each lies below exactly one of the replacing items.
-/

namespace BestFirst

variable {ι α κ : Type*}

/-- A permutation of an image is the image of a permutation. -/
theorem exists_perm_of_map_perm {β : Type*} {f : α → β} {xs : List α} {ys : List β}
    (h : (xs.map f).Perm ys) : ∃ zs, xs.Perm zs ∧ zs.map f = ys := by
  have hcomp : Relation.Comp (· = List.map f ·) List.Perm ys xs := by
    rw [List.eq_map_comp_perm]
    exact h.symm
  obtain ⟨zs, hmap, hperm⟩ := hcomp
  exact ⟨zs, hperm.symm, hmap.symm⟩

section Below

variable {below : ι → α → Bool}

/-- The members of a list below an item, shared out to the items that replace it. -/
theorem filter_perm_flatMap {all : List α} (hall : all.Nodup) {p : α → Bool} {items : List ι}
    (hcover : ∀ a ∈ all, p a = true ↔ ∃ y ∈ items, below y a = true)
    (hdisj : items.Pairwise fun y z => ∀ a ∈ all, below y a = true → ¬ below z a = true) :
    (all.filter p).Perm (items.flatMap fun y => all.filter (below y)) := by
  rw [List.perm_ext_iff_of_nodup (hall.filter _)]
  · intro a
    simp only [List.mem_filter, List.mem_flatMap]
    constructor
    · rintro ⟨ha, hp⟩
      obtain ⟨y, hy, hbelow⟩ := (hcover a ha).mp hp
      exact ⟨y, hy, ha, hbelow⟩
    · rintro ⟨y, hy, ha, hbelow⟩
      exact ⟨ha, (hcover a ha).mpr ⟨y, hy, hbelow⟩⟩
  · rw [List.nodup_flatMap]
    refine ⟨fun y _ => hall.filter _, hdisj.imp fun h => ?_⟩
    intro a hy hz
    exact h a (List.mem_filter.mp hy).1 (List.mem_filter.mp hy).2 (List.mem_filter.mp hz).2

end Below

variable [LinearOrder κ] {found : ι → List α} {key : α → κ}

/-- The results under the frontier, in the order of their keys. -/
structure Yields (found : ι → List α) (key : α → κ) (frontier : List ι) (rest : List α) : Prop where
  sorted : rest.Pairwise fun a b => key a < key b
  perm : (frontier.flatMap found).Perm rest

namespace Yields

variable {frontier frontier' children : List ι} {rest : List α} {x : ι} {a : α}

/-- The order of the frontier does not matter. -/
theorem of_perm (h : Yields found key frontier rest) (hp : frontier.Perm frontier') :
    Yields found key frontier' rest :=
  ⟨h.sorted, (hp.flatMap_right found).symm.trans h.perm⟩

/-- An empty frontier yields nothing. -/
theorem eq_nil (h : Yields found key ([] : List ι) rest) : rest = [] := h.perm.nil_eq.symm

/-- An item without results can be dropped. -/
theorem skip (h : Yields found key (x :: frontier) rest) (hx : found x = []) :
    Yields found key frontier rest := by
  have hperm := h.perm
  rw [List.flatMap_cons, hx, List.nil_append] at hperm
  exact ⟨h.sorted, hperm⟩

/-- Items without results can be dropped. -/
theorem skip_all {dropped : List ι} (h : Yields found key (dropped ++ frontier) rest)
    (hd : ∀ x ∈ dropped, found x = []) : Yields found key frontier rest := by
  induction dropped with
  | nil => exact h
  | cons x dropped ih =>
    apply ih
    · exact h.skip (hd x List.mem_cons_self)
    · exact fun y hy => hd y (List.mem_cons_of_mem _ hy)

/-- The first result of an item comes next if nothing under the frontier is smaller, and the items
that share out its other results take its place. -/
theorem emit (h : Yields found key (x :: frontier) rest)
    (hx : (found x).Perm (a :: children.flatMap found)) (hfirst : ∀ b ∈ found x, key a ≤ key b)
    (hle : ∀ y ∈ frontier, ∀ b ∈ found y, key a ≤ key b) :
    ∃ rest', rest = a :: rest' ∧ Yields found key (children ++ frontier) rest' := by
  have hperm : (a :: (children ++ frontier).flatMap found).Perm rest := by
    have hp := h.perm
    rw [List.flatMap_cons] at hp
    rw [List.flatMap_append, ← List.cons_append]
    exact (hx.symm.append_right _).trans hp
  have hleast : ∀ b ∈ rest, key a ≤ key b := by
    intro b hb
    obtain ⟨y, hy, hby⟩ := List.mem_flatMap.mp (h.perm.mem_iff.mpr hb)
    rcases List.mem_cons.mp hy with rfl | hy
    · exact hfirst b hby
    · exact hle y hy b hby
  cases rest with
  | nil => exact absurd hperm.eq_nil (List.cons_ne_nil _ _)
  | cons b rest' =>
    have hsorted := List.pairwise_cons.mp h.sorted
    have hab : a = b := by
      rcases List.mem_cons.mp (hperm.mem_iff.mp List.mem_cons_self) with ha | ha
      · exact ha
      · exact absurd (hleast b List.mem_cons_self) (not_le.mpr (hsorted.1 a ha))
    subst hab
    exact ⟨rest', rfl, hsorted.2, hperm.cons_inv⟩

end Yields

end BestFirst
