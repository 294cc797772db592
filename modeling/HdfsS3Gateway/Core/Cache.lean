import HdfsS3Gateway.Library.Lru
import HdfsS3Gateway.Library.Overflow

/-!
# The bounded, weighted TTL cache

A cache of the LRU crate whose entries carry the instant of their insertion and a weight, together
with the total weight. Time is in nanoseconds. Every operation takes the current instant where the
source reads the clock, and records whether the weight arithmetic left the range of `usize`.

Callers only need to know which entries an operation can leave behind: a lookup and a removal leave
some of the entries that were there, an insertion also leaves its own entry, stamped now, and never
another one under its key. A hit is an entry younger than the TTL.
-/

namespace HdfsS3Gateway

open Lru Overflow

/-- `Entry`: a value, when it was inserted and its weight. -/
structure Entry (V : Type) where
  value : V
  inserted : ℕ
  weight : ℕ
  deriving DecidableEq, Repr

/-- `TtlCache`, with the entries of its mutex-guarded `Inner` as its own fields. -/
structure TtlCache {K : Type} [DecidableEq K] (lru : Crate K) (V : Type) where
  entries : lru.Cache (Entry V)
  weight : ℕ
  ttl : ℕ
  maxWeight : ℕ

namespace TtlCache

variable {K : Type} [DecidableEq K] {lru : Crate K} {V : Type}

/-- `TtlCache::new`. -/
def new (lru : Crate K) (V : Type) (capacity ttl maxWeight : ℕ) : TtlCache lru V where
  entries := lru.new capacity
  weight := 0
  ttl := ttl
  maxWeight := maxWeight

/-- `is_enabled`. -/
def isEnabled (cache : TtlCache lru V) : Bool := cache.ttl ≠ 0

/-- The entry under the key is at least as old as the TTL. -/
def isExpired (now : ℕ) (key : K) (cache : TtlCache lru V) : Bool :=
  match lru.peek cache.entries key with
  | some entry => cache.ttl ≤ now - entry.inserted
  | none => false

/-- `entries.pop(key)`, releasing the weight of the entry that was there. -/
def popEntry (usizeMax : ℕ) (key : K) (cache : TtlCache lru V) : Tracked (TtlCache lru V) :=
  match lru.pop cache.entries key with
  | (some entry, entries) => do
    let weight ← subUsize usizeMax cache.weight entry.weight
    pure { cache with entries, weight }
  | (none, entries) => pure { cache with entries }

/-- `get`: a live value, made the most recently used one; an expired entry is dropped. -/
def get (usizeMax now : ℕ) (key : K) (cache : TtlCache lru V) :
    Tracked (Option V × TtlCache lru V) :=
  if !cache.isEnabled then pure (none, cache)
  else if cache.isExpired now key then do
    let cache ← cache.popEntry usizeMax key
    pure (none, cache)
  else
    let (found, entries) := lru.get cache.entries key
    pure (found.map Entry.value, { cache with entries })

/-- The eviction loop of `insert`. It runs at most once per entry, which bounds the fuel. -/
def evictWhileOver (usizeMax maxWeight : ℕ) :
    (fuel : ℕ) → lru.Cache (Entry V) → ℕ → Tracked (lru.Cache (Entry V) × ℕ)
  | 0, entries, weight => pure (entries, weight)
  | fuel + 1, entries, weight =>
    if maxWeight < weight then
      let (popped, entries) := lru.popLru entries
      match popped with
      | some (_, entry) => do
        let weight ← subUsize usizeMax weight entry.weight
        evictWhileOver usizeMax maxWeight fuel entries weight
      | none => pure (entries, weight)
    else pure (entries, weight)

/-- Release the weight of the entry that `push` gave back, if it gave one back. -/
def releaseEvicted (usizeMax weight : ℕ) : Option (K × Entry V) → Tracked ℕ
  | some (_, evicted) => subUsize usizeMax weight evicted.weight
  | none => pure weight

/-- `insert`: replace the key's entry, then evict from the far end while the weight is too high. -/
def insert (usizeMax now : ℕ) (key : K) (value : V) (weight : ℕ) (cache : TtlCache lru V) :
    Tracked (TtlCache lru V) :=
  if !cache.isEnabled || cache.maxWeight < weight then pure cache
  else do
    let cache ← cache.popEntry usizeMax key
    let pushed := lru.push cache.entries key { value, inserted := now, weight }
    let total ← releaseEvicted usizeMax cache.weight pushed.1
    let total ← addUsize usizeMax total weight
    let kept ← evictWhileOver usizeMax cache.maxWeight (lru.view pushed.2).length pushed.2 total
    pure { cache with entries := kept.1, weight := kept.2 }

/-- `remove`. -/
def remove (usizeMax : ℕ) (key : K) (cache : TtlCache lru V) : Tracked (TtlCache lru V) :=
  cache.popEntry usizeMax key

/-! ## What an operation can leave behind -/

/-- The entries, most recently used first. -/
def view (cache : TtlCache lru V) : List (K × Entry V) := lru.view cache.entries

variable {usizeMax now : ℕ} {key : K} {cache : TtlCache lru V}

@[simp] theorem view_new (capacity ttl maxWeight : ℕ) :
    (new lru V capacity ttl maxWeight).view = [] := lru.view_new _

/-- A disabled cache misses and stays as it is. -/
theorem get_of_disabled (h : cache.ttl = 0) :
    cache.get usizeMax now key = pure (none, cache) := by
  simp [get, isEnabled, h]

/-- Popping a key leaves the entries of the other keys, under the same limits. -/
theorem popEntry_spec : (cache.popEntry usizeMax key).value.view = erase key cache.view ∧
    (cache.popEntry usizeMax key).value.ttl = cache.ttl ∧
    (cache.popEntry usizeMax key).value.maxWeight = cache.maxWeight := by
  have hview : lru.view (lru.pop cache.entries key).2 = erase key cache.view := lru.view_pop _ _
  unfold popEntry
  split <;> rename_i hpop <;> rw [hpop] at hview <;> exact ⟨hview, rfl, rfl⟩

/-- A lookup in the crate only reorders the entries. -/
theorem mem_view_get {c : lru.Cache V} {x : K × V} (h : x ∈ lru.view (lru.get c key).2) :
    x ∈ lru.view c := by
  rw [lru.view_get] at h
  split at h
  · rename_i v hv
    rcases List.mem_cons.mp h with rfl | h
    · exact mem_of_find hv
    · exact (mem_erase.mp h).1
  · exact h

/-- A hit is an entry of the key that is younger than the TTL. -/
theorem get_hit {v : V} (h : (cache.get usizeMax now key).value.1 = some v) :
    ∃ e, (key, e) ∈ cache.view ∧ e.value = v ∧ now - e.inserted < cache.ttl := by
  unfold get at h
  split at h
  · contradiction
  · split at h
    · contradiction
    · rename_i hlive
      simp only [Tracked.value_pure, lru.get_fst, Option.map_eq_some_iff] at h
      obtain ⟨e, hfind, rfl⟩ := h
      rw [isExpired, lru.peek_eq, hfind] at hlive
      exact ⟨e, mem_of_find hfind, rfl, by simpa using hlive⟩

/-- A lookup leaves some of the entries. -/
theorem get_leaves {x : K × Entry V} (h : x ∈ (cache.get usizeMax now key).value.2.view) :
    x ∈ cache.view := by
  unfold get at h
  split at h
  · exact h
  · split at h
    · change x ∈ (cache.popEntry usizeMax key).value.view at h
      rw [popEntry_spec.1] at h
      exact (mem_erase.mp h).1
    · exact mem_view_get h

/-- A lookup keeps the TTL. -/
@[simp] theorem ttl_get : (cache.get usizeMax now key).value.2.ttl = cache.ttl := by
  unfold get
  split
  · rfl
  · split
    · exact popEntry_spec.2.1
    · rfl

/-- Evicting leaves some of the entries. -/
theorem evictWhileOver_leaves {maxWeight fuel weight : ℕ} {entries : lru.Cache (Entry V)}
    {x : K × Entry V}
    (h : x ∈ lru.view (evictWhileOver usizeMax maxWeight fuel entries weight).value.1) :
    x ∈ lru.view entries := by
  induction fuel generalizing entries weight with
  | zero => exact h
  | succ fuel ih =>
    rw [evictWhileOver] at h
    split at h
    · have hdrop : x ∈ lru.view (lru.popLru entries).2 := by
        simp only [] at h
        split at h
        · exact ih h
        · exact h
      rw [lru.view_popLru] at hdrop
      exact (List.dropLast_sublist _).subset hdrop
    · exact h

/-- An insertion leaves its own entry, stamped now, and otherwise entries of other keys that were
there; a disabled cache and an entry that is too heavy leave everything as it was. -/
theorem insert_leaves {value : V} {weight : ℕ} {x : K × Entry V}
    (h : x ∈ (cache.insert usizeMax now key value weight).value.view) :
    (cache.ttl ≠ 0 ∧ x = (key, ⟨value, now, weight⟩)) ∨
      (x ∈ cache.view ∧ (x.1 ≠ key ∨ cache.ttl = 0 ∨ cache.maxWeight < weight)) := by
  unfold insert at h
  split at h
  · rename_i hno
    have hno' : cache.ttl = 0 ∨ cache.maxWeight < weight := by simpa [isEnabled] using hno
    exact Or.inr ⟨h, Or.inr hno'⟩
  · rename_i hyes
    have hpush := evictWhileOver_leaves h
    rw [lru.view_push] at hpush
    rcases List.mem_cons.mp hpush with rfl | hpush
    · exact Or.inl ⟨fun h0 => hyes (by simp [isEnabled, h0]), rfl⟩
    · have herase : x ∈ (cache.popEntry usizeMax key).value.view := by
        split at hpush
        · exact (mem_erase.mp hpush).1
        · split at hpush
          · exact hpush
          · exact (List.dropLast_sublist _).subset hpush
      rw [popEntry_spec.1, mem_erase] at herase
      exact Or.inr ⟨herase.1, Or.inl herase.2⟩

/-- An insertion keeps the TTL. -/
@[simp] theorem ttl_insert {value : V} {weight : ℕ} :
    (cache.insert usizeMax now key value weight).value.ttl = cache.ttl := by
  unfold insert
  split
  · rfl
  · have hspec := @popEntry_spec K _ lru V usizeMax key cache
    exact hspec.2.1

/-- A removal leaves the entries of other keys. -/
theorem remove_leaves {x : K × Entry V} (h : x ∈ (cache.remove usizeMax key).value.view) :
    x ∈ cache.view ∧ x.1 ≠ key := by
  rw [remove, popEntry_spec.1] at h
  exact mem_erase.mp h

/-- A removal keeps the TTL. -/
@[simp] theorem ttl_remove : (cache.remove usizeMax key).value.ttl = cache.ttl := popEntry_spec.2.1

end TtlCache

end HdfsS3Gateway
