import Mathlib.Data.List.Nodup

/-!
# A least-recently-used cache as a recency list

The documented behaviour of an LRU cache crate: a bounded collection of distinct keys ordered from
the most to the least recently used entry. `Crate` is the interface, with `view` giving the entries
in that order and one law per operation; anything that satisfies the laws may stand behind it, and
`listCrate` is the crate whose representation is the recency list itself.
-/

namespace Lru

variable {K V : Type} [DecidableEq K]

/-- The value under a key. -/
def find (k : K) : List (K × V) → Option V
  | [] => none
  | x :: xs => if x.1 = k then some x.2 else find k xs

/-- The entries without a key. -/
def erase (k : K) (xs : List (K × V)) : List (K × V) := xs.filter fun x => x.1 ≠ k

/-- What is found is an entry. -/
theorem mem_of_find {k : K} {v : V} {xs : List (K × V)} (h : find k xs = some v) : (k, v) ∈ xs := by
  induction xs with
  | nil => contradiction
  | cons x xs ih =>
    rw [find] at h
    split at h
    · rename_i hk
      obtain rfl := Option.some.inj h
      rw [← hk]
      exact List.mem_cons_self
    · exact List.mem_cons_of_mem _ (ih h)

/-- An entry remains when its key is not the erased one. -/
@[simp] theorem mem_erase {k : K} {x : K × V} {xs : List (K × V)} :
    x ∈ erase k xs ↔ x ∈ xs ∧ x.1 ≠ k := by
  simp [erase]

/-- The operations of the crate and what they do to the recency list. -/
structure Crate (K : Type) [DecidableEq K] where
  Cache : Type → Type
  new {V : Type} (cap : ℕ) : Cache V
  peek {V : Type} (c : Cache V) (k : K) : Option V
  get {V : Type} (c : Cache V) (k : K) : Option V × Cache V
  pop {V : Type} (c : Cache V) (k : K) : Option V × Cache V
  push {V : Type} (c : Cache V) (k : K) (v : V) : Option (K × V) × Cache V
  popLru {V : Type} (c : Cache V) : Option (K × V) × Cache V
  /-- The entries, most recently used first. -/
  view {V : Type} (c : Cache V) : List (K × V)
  /-- The largest number of entries. -/
  cap {V : Type} (c : Cache V) : ℕ
  nodup {V : Type} (c : Cache V) : ((view c).map Prod.fst).Nodup
  length_le {V : Type} (c : Cache V) : (view c).length ≤ cap c
  cap_pos {V : Type} (c : Cache V) : 0 < cap c
  view_new {V : Type} (n : ℕ) : view (new n : Cache V) = []
  cap_new {V : Type} (n : ℕ) (hn : 0 < n) : cap (new n : Cache V) = n
  peek_eq {V : Type} (c : Cache V) (k : K) : peek c k = find k (view c)
  get_fst {V : Type} (c : Cache V) (k : K) : (get c k).1 = find k (view c)
  view_get {V : Type} (c : Cache V) (k : K) : view (get c k).2 =
    match find k (view c) with
    | some v => (k, v) :: erase k (view c)
    | none => view c
  cap_get {V : Type} (c : Cache V) (k : K) : cap (get c k).2 = cap c
  pop_fst {V : Type} (c : Cache V) (k : K) : (pop c k).1 = find k (view c)
  view_pop {V : Type} (c : Cache V) (k : K) : view (pop c k).2 = erase k (view c)
  cap_pop {V : Type} (c : Cache V) (k : K) : cap (pop c k).2 = cap c
  push_fst {V : Type} (c : Cache V) (k : K) (v : V) : (push c k v).1 =
    match find k (view c) with
    | some old => some (k, old)
    | none => if (view c).length < cap c then none else (view c).getLast?
  view_push {V : Type} (c : Cache V) (k : K) (v : V) : view (push c k v).2 =
    (k, v) :: match find k (view c) with
      | some _ => erase k (view c)
      | none => if (view c).length < cap c then view c else (view c).dropLast
  cap_push {V : Type} (c : Cache V) (k : K) (v : V) : cap (push c k v).2 = cap c
  popLru_fst {V : Type} (c : Cache V) : (popLru c).1 = (view c).getLast?
  view_popLru {V : Type} (c : Cache V) : view (popLru c).2 = (view c).dropLast
  cap_popLru {V : Type} (c : Cache V) : cap (popLru c).2 = cap c

/-! ## The recency list as a crate -/

/-- A recency list with distinct keys within its capacity. -/
structure ListCache (K V : Type) where
  entries : List (K × V)
  cap : ℕ
  nodup : (entries.map Prod.fst).Nodup
  length_le : entries.length ≤ cap
  cap_pos : 0 < cap

/-- A part of a recency list has distinct keys. -/
theorem nodup_of_sublist {K V : Type} {xs ys : List (K × V)} (h : xs.Sublist ys)
    (hys : (ys.map Prod.fst).Nodup) : (xs.map Prod.fst).Nodup := hys.sublist (h.map _)

/-- Erasing leaves a part of the list. -/
theorem erase_sublist (k : K) (xs : List (K × V)) : (erase k xs).Sublist xs := List.filter_sublist

/-- Erasing a present key makes the list shorter. -/
theorem length_erase_lt {k : K} {v : V} {xs : List (K × V)} (h : find k xs = some v) :
    (erase k xs).length < xs.length :=
  List.length_filter_lt_length_iff_exists.mpr ⟨_, mem_of_find h, by simp⟩

/-- A key that is not found is the key of no entry. -/
theorem not_mem_of_find {k : K} {xs : List (K × V)} (h : find k xs = none) :
    k ∉ xs.map Prod.fst := by
  induction xs with
  | nil => simp
  | cons x xs ih =>
    rw [find] at h
    split at h
    · contradiction
    · rename_i hk
      simpa [Ne.symm hk] using ih h

namespace ListCache

variable (c : ListCache K V) (k : K) (v : V)

/-- Keep a part of the entries. -/
def restrict (xs : List (K × V)) (h : xs.Sublist c.entries) : ListCache K V where
  entries := xs
  cap := c.cap
  nodup := nodup_of_sublist h c.nodup
  length_le := Nat.le_trans h.length_le c.length_le
  cap_pos := c.cap_pos

/-- Put an entry in front of a part of the entries that has room for it. -/
def front (xs : List (K × V)) (h : xs.Sublist c.entries) (hk : k ∉ xs.map Prod.fst)
    (hlen : xs.length < c.cap) : ListCache K V where
  entries := (k, v) :: xs
  cap := c.cap
  nodup := List.nodup_cons.mpr ⟨hk, nodup_of_sublist h c.nodup⟩
  length_le := hlen
  cap_pos := c.cap_pos

/-- Put an entry in front of all entries with other keys. -/
def touch {old : V} (h : find k c.entries = some old) : ListCache K V :=
  c.front k v (erase k c.entries) (erase_sublist k _) (by simp)
    (Nat.lt_of_lt_of_le (length_erase_lt h) c.length_le)

/-- A lookup makes the entry the most recently used one. -/
def get : Option V × ListCache K V :=
  match h : find k c.entries with
  | some v => (some v, c.touch k v h)
  | none => (none, c)

/-- A push replaces the value of a present key, and else makes room at the far end. -/
def push : Option (K × V) × ListCache K V :=
  match h : find k c.entries with
  | some old => (some (k, old), c.touch k v h)
  | none =>
    if hlen : c.entries.length < c.cap then
      (none, c.front k v c.entries (List.Sublist.refl _) (not_mem_of_find h) hlen)
    else
      (c.entries.getLast?, c.front k v c.entries.dropLast (List.dropLast_sublist _)
        (fun hm => not_mem_of_find h ((List.dropLast_sublist _).map _ |>.subset hm))
        (by
          have hpos := c.cap_pos
          have hle := c.length_le
          rw [List.length_dropLast]
          omega))

end ListCache

/-- The crate whose caches are recency lists. -/
def listCrate (K : Type) [DecidableEq K] : Crate K where
  Cache := ListCache K
  new n := ⟨[], max n 1, by simp, by simp, by omega⟩
  peek c k := find k c.entries
  get c k := c.get k
  pop c k := (find k c.entries, c.restrict (erase k c.entries) (erase_sublist k _))
  push c k v := c.push k v
  popLru c := (c.entries.getLast?, c.restrict c.entries.dropLast (List.dropLast_sublist _))
  view c := c.entries
  cap c := c.cap
  nodup c := c.nodup
  length_le c := c.length_le
  cap_pos c := c.cap_pos
  view_new _ := rfl
  cap_new n hn := Nat.max_eq_left hn
  peek_eq _ _ := rfl
  get_fst c k := by
    unfold ListCache.get
    split <;> simp_all
  view_get c k := by
    unfold ListCache.get
    split <;> simp_all [ListCache.touch, ListCache.front]
  cap_get c k := by
    unfold ListCache.get
    split <;> rfl
  pop_fst _ _ := rfl
  view_pop _ _ := rfl
  cap_pop _ _ := rfl
  push_fst c k v := by
    unfold ListCache.push
    split
    · simp_all
    · split <;> simp_all
  view_push c k v := by
    unfold ListCache.push
    split
    · simp_all [ListCache.touch, ListCache.front]
    · split <;> simp_all [ListCache.front]
  cap_push c k v := by
    unfold ListCache.push
    split
    · rfl
    · split <;> rfl
  popLru_fst _ := rfl
  view_popLru _ := rfl
  cap_popLru _ := rfl

end Lru
