import HdfsS3Gateway.Core.Cache
import HdfsS3Gateway.Library.WeightedLru
import Mathlib.Data.Nat.Basic

/-!
# Runs of the bounded cache

Any lookups, insertions and removals on one cache, one after another, with time passing between
them. The cache keeps the total weight of its entries beside them and updates it with unchecked
arithmetic, so the books are right as long as no sum leaves the range of `usize`: before it evicts
anything, an insertion adds the weight of the new entry to the weight of the entries it found, each
of which may be as high as the budget.

While the books are right the cache is a recency list. That list is the specification: an insertion
puts the key in front and then drops entries from the far end until the rest fits.
-/

namespace HdfsS3Gateway

open Lru Overflow

/-- A call on a cache. -/
inductive CacheOp (K V : Type) where
  | get (key : K)
  | insert (key : K) (value : V) (weight : ℕ)
  | remove (key : K)
  deriving DecidableEq, Repr

/-! ## The recency list -/

namespace Recency

variable {K V : Type} [DecidableEq K] (capacity ttl maxWeight : ℕ)

/-- A lookup drops an entry that is as old as the TTL, and moves a younger one to the front. -/
def get (now : ℕ) (key : K) (xs : List (K × Entry V)) : Option V × List (K × Entry V) :=
  match find key xs with
  | none => (none, xs)
  | some entry =>
    if ttl ≤ now - entry.inserted then (none, erase key xs)
    else (some entry.value, (key, entry) :: erase key xs)

/-- An insertion within the budget puts the key in front, stamped now, and drops entries from the
far end until the number and the weight of the rest fit. -/
def insert (now : ℕ) (key : K) (value : V) (weight : ℕ) (xs : List (K × Entry V)) :
    List (K × Entry V) :=
  if maxWeight < weight then xs
  else Lru.trim (Fits Entry.weight capacity maxWeight) ((key, ⟨value, now, weight⟩) :: erase key xs)

/-- A call at an instant: the answer of a lookup, and the entries after it. -/
def apply (now : ℕ) (op : CacheOp K V) (xs : List (K × Entry V)) :
    Option V × List (K × Entry V) :=
  match op with
  | .get key => get ttl now key xs
  | .insert key value weight => (none, insert capacity maxWeight now key value weight xs)
  | .remove key => (none, erase key xs)

/-- Calls one after another, each some time after the one before. -/
def run : (now : ℕ) → List (ℕ × CacheOp K V) → List (K × Entry V) →
    List (Option V) × List (K × Entry V)
  | _, [], xs => ([], xs)
  | now, (elapsed, op) :: steps, xs =>
    let (answer, xs) := apply capacity ttl maxWeight (now + elapsed) op xs
    let (answers, xs) := run (now + elapsed) steps xs
    (answer :: answers, xs)

/-- The last insertion under each key that was within the budget, unless a removal came after it. -/
def history : (now : ℕ) → List (ℕ × CacheOp K V) → (K → Option (Entry V)) → K → Option (Entry V)
  | _, [], last => last
  | now, (elapsed, op) :: steps, last =>
    history (now + elapsed) steps <|
      match op with
      | .get _ => last
      | .insert key value weight =>
        if maxWeight < weight then last
        else Function.update last key (some ⟨value, now + elapsed, weight⟩)
      | .remove key => Function.update last key none

variable {capacity maxWeight}

/-- An insertion within the budget leaves its own entry in front, and behind it as many of the
other entries from the front as fit. -/
theorem insert_eq (hcap : 0 < capacity) (now : ℕ) (key : K) (value : V) {weight : ℕ}
    (hweight : weight ≤ maxWeight) (xs : List (K × Entry V)) :
    ∃ rest, insert capacity maxWeight now key value weight xs = (key, ⟨value, now, weight⟩) :: rest ∧
      rest <+: erase key xs ∧
      Fits Entry.weight capacity maxWeight ((key, ⟨value, now, weight⟩) :: rest) ∧
      ∀ longer, longer <+: erase key xs →
        Fits Entry.weight capacity maxWeight ((key, ⟨value, now, weight⟩) :: longer) →
        longer <+: rest := by
  set front : K × Entry V := (key, ⟨value, now, weight⟩)
  have hinsert : insert capacity maxWeight now key value weight xs =
      Lru.trim (Fits Entry.weight capacity maxWeight) (front :: erase key xs) :=
    if_neg (Nat.not_lt.mpr hweight)
  -- the new entry fits alone, so what remains begins with it
  have hone : Fits Entry.weight capacity maxWeight [front] := ⟨hcap, hweight⟩
  have hsurvives : [front] <+: Lru.trim (Fits Entry.weight capacity maxWeight) (front :: erase key xs) :=
    trim_longest (List.cons_prefix_cons.mpr ⟨rfl, List.nil_prefix⟩) hone
  obtain ⟨rest, hrest⟩ := hsurvives
  rw [List.singleton_append] at hrest
  have hfits := trim_holds (p := Fits Entry.weight capacity maxWeight)
    ⟨Nat.zero_le _, Nat.zero_le _⟩ (front :: erase key xs)
  have hprefix := trim_isPrefix (p := Fits Entry.weight capacity maxWeight) (front :: erase key xs)
  rw [← hrest] at hfits hprefix
  refine ⟨rest, hinsert.trans hrest.symm, (List.cons_prefix_cons.mp hprefix).2, hfits, ?_⟩
  intro longer hlonger hfit
  have hlongest := trim_longest (List.cons_prefix_cons.mpr ⟨rfl, hlonger⟩) hfit
  rw [← hrest] at hlongest
  exact (List.cons_prefix_cons.mp hlongest).2

end Recency

/-! ## Runs of the cache -/

namespace TtlCache

variable {K : Type} [DecidableEq K] {lru : Crate K} {V : Type}

/-- A call at an instant: the answer of a lookup, and the cache after it. -/
def apply (usizeMax now : ℕ) (op : CacheOp K V) (cache : TtlCache lru V) :
    Tracked (Option V × TtlCache lru V) :=
  match op with
  | .get key => cache.get usizeMax now key
  | .insert key value weight => do
    let cache ← cache.insert usizeMax now key value weight
    pure (none, cache)
  | .remove key => do
    let cache ← cache.remove usizeMax key
    pure (none, cache)

/-- Calls one after another, each some time after the one before. -/
def run (usizeMax : ℕ) : (now : ℕ) → List (ℕ × CacheOp K V) → TtlCache lru V →
    Tracked (List (Option V) × TtlCache lru V)
  | _, [], cache => pure ([], cache)
  | now, (elapsed, op) :: steps, cache => do
    let (answer, cache) ← cache.apply usizeMax (now + elapsed) op
    let (answers, cache) ← run usizeMax (now + elapsed) steps cache
    pure (answer :: answers, cache)

/-- The books of a cache are right and its limits are kept. -/
structure Accounted (capacity : ℕ) (cache : TtlCache lru V) : Prop where
  weight_eq : cache.weight = total Entry.weight cache.view
  weight_le : cache.weight ≤ cache.maxWeight
  length_le : cache.view.length ≤ capacity
  nodup : (cache.view.map Prod.fst).Nodup

/-- A cache with the given limits whose books are right. -/
structure Balanced (capacity ttl maxWeight : ℕ) (cache : TtlCache lru V) : Prop where
  cap_eq : lru.cap cache.entries = capacity
  ttl_eq : cache.ttl = ttl
  maxWeight_eq : cache.maxWeight = maxWeight
  weight_eq : cache.weight = total Entry.weight cache.view
  weight_le : cache.weight ≤ maxWeight

variable {usizeMax now capacity ttl maxWeight : ℕ} {key : K} {cache : TtlCache lru V}

/-- No key is held twice. -/
theorem nodup_view : (cache.view.map Prod.fst).Nodup := lru.nodup cache.entries

theorem Balanced.accounted (h : Balanced capacity ttl maxWeight cache) :
    Accounted capacity cache where
  weight_eq := h.weight_eq
  weight_le := h.maxWeight_eq ▸ h.weight_le
  length_le := h.cap_eq ▸ lru.length_le cache.entries
  nodup := nodup_view

/-- A new cache has nothing to account for. -/
theorem balanced_new (hcap : 0 < capacity) :
    Balanced capacity ttl maxWeight (new lru V capacity ttl maxWeight) where
  cap_eq := lru.cap_new capacity hcap
  ttl_eq := rfl
  maxWeight_eq := rfl
  weight_eq := by
    rw [view_new]
    rfl
  weight_le := Nat.zero_le _

/-- Popping a key keeps the capacity. -/
theorem cap_popEntry :
    lru.cap (cache.popEntry usizeMax key).value.entries = lru.cap cache.entries := by
  have hcap := lru.cap_pop cache.entries key
  unfold popEntry
  split <;> rename_i hpop <;> rwa [hpop] at hcap

/-- Popping a key takes the weight of its entry off the books. -/
theorem popEntry_weight (h : Balanced capacity ttl maxWeight cache) (hmax : maxWeight ≤ usizeMax)
    (key : K) : (cache.popEntry usizeMax key).overflowed = false ∧
      (cache.popEntry usizeMax key).value.weight = total Entry.weight (erase key cache.view) := by
  have hfind : (lru.pop cache.entries key).1 = find key cache.view := lru.pop_fst _ _
  have hweight := h.weight_eq
  unfold popEntry
  split <;> rename_i hpop <;> rw [hpop] at hfind
  · rename_i entry entries
    rw [total_erase nodup_view hfind.symm] at hweight
    have hle : entry.weight ≤ cache.weight := hweight ▸ Nat.le_add_right _ _
    have hrange : cache.weight ≤ usizeMax := Nat.le_trans h.weight_le hmax
    constructor
    · simp [hle]
    · change (subUsize usizeMax cache.weight entry.weight).value = _
      rw [value_subUsize hrange hle]
      exact Nat.sub_eq_of_eq_add' hweight
  · refine ⟨rfl, ?_⟩
    rw [erase_of_find hfind.symm]
    exact hweight

/-- Popping a key keeps the books right. -/
theorem popEntry_balanced (h : Balanced capacity ttl maxWeight cache) (hmax : maxWeight ≤ usizeMax)
    (key : K) : Balanced capacity ttl maxWeight (cache.popEntry usizeMax key).value where
  cap_eq := cap_popEntry.trans h.cap_eq
  ttl_eq := popEntry_spec.2.1.trans h.ttl_eq
  maxWeight_eq := popEntry_spec.2.2.trans h.maxWeight_eq
  weight_eq := by
    rw [popEntry_spec.1]
    exact (popEntry_weight h hmax key).2
  weight_le := by
    rw [(popEntry_weight h hmax key).2]
    exact Nat.le_trans (total_le_of_sublist Entry.weight (erase_sublist key _)) (h.weight_eq ▸ h.weight_le)

/-- A lookup within the crate keeps the total weight. -/
theorem total_view_get (c : lru.Cache (Entry V)) (key : K) :
    total Entry.weight (lru.view (lru.get c key).2) = total Entry.weight (lru.view c) := by
  rw [lru.view_get]
  split
  · rename_i entry hfind
    exact (total_erase (lru.nodup c) hfind).symm
  · rfl

/-- A lookup keeps the books right. -/
theorem get_balanced (now : ℕ) (h : Balanced capacity ttl maxWeight cache) (hmax : maxWeight ≤ usizeMax)
    (key : K) : (cache.get usizeMax now key).overflowed = false ∧
      Balanced capacity ttl maxWeight (cache.get usizeMax now key).value.2 := by
  unfold get
  split
  · exact ⟨rfl, h⟩
  · split
    · refine ⟨?_, popEntry_balanced h hmax key⟩
      rw [Tracked.overflowed_bind, (popEntry_weight h hmax key).1]
      rfl
    · refine ⟨rfl, (lru.cap_get _ _).trans h.cap_eq, h.ttl_eq, h.maxWeight_eq, ?_, h.weight_le⟩
      exact h.weight_eq.trans (total_view_get _ _).symm

/-- A lookup in an enabled cache is the one of the recency list. -/
theorem get_eq_recency (usizeMax now : ℕ) (key : K) (henabled : 0 < cache.ttl) :
    ((cache.get usizeMax now key).value.1, (cache.get usizeMax now key).value.2.view) =
      Recency.get cache.ttl now key cache.view := by
  have hyes : ¬ (!cache.isEnabled) = true := by simp [isEnabled, Nat.ne_of_gt henabled]
  have hexpired : cache.isExpired now key =
      (find key cache.view).any fun entry => decide (cache.ttl ≤ now - entry.inserted) := by
    rw [isExpired, lru.peek_eq]
    change _ = (find key (lru.view cache.entries)).any _
    cases find key (lru.view cache.entries) <;> rfl
  have hpopped : (cache.popEntry usizeMax key).value.view = erase key cache.view := popEntry_spec.1
  have hfst : (lru.get cache.entries key).1 = find key cache.view := lru.get_fst _ _
  have hview := lru.view_get cache.entries key
  rw [get, if_neg hyes, Recency.get]
  cases hfind : find key cache.view with
  | none =>
    rw [hfind] at hexpired hfst
    rw [show find key (lru.view cache.entries) = none from hfind] at hview
    rw [if_neg (by simp [hexpired])]
    exact Prod.ext (congrArg (Option.map Entry.value) hfst) hview
  | some entry =>
    rw [hfind] at hexpired hfst
    rw [show find key (lru.view cache.entries) = some entry from hfind] at hview
    by_cases hold : cache.ttl ≤ now - entry.inserted
    · rw [if_pos (by simpa [hexpired] using hold)]
      simp only [if_pos hold]
      exact Prod.ext rfl hpopped
    · rw [if_neg (by simpa [hexpired] using hold)]
      simp only [if_neg hold]
      exact Prod.ext (congrArg (Option.map Entry.value) hfst) hview

/-- While the running total is right, the eviction loop drops entries from the far end until their
total weight is within the budget, and its total stays right. -/
theorem evictWhileOver_spec (maxWeight fuel : ℕ) {weight : ℕ} {entries : lru.Cache (Entry V)}
    (hweight : weight = total Entry.weight (lru.view entries)) (hrange : weight ≤ usizeMax) :
    (evictWhileOver usizeMax maxWeight fuel entries weight).overflowed = false ∧
      lru.view (evictWhileOver usizeMax maxWeight fuel entries weight).value.1 =
        dropUntil (fun xs => total Entry.weight xs ≤ maxWeight) fuel (lru.view entries) ∧
      (evictWhileOver usizeMax maxWeight fuel entries weight).value.2 =
        total Entry.weight
          (lru.view (evictWhileOver usizeMax maxWeight fuel entries weight).value.1) ∧
      lru.cap (evictWhileOver usizeMax maxWeight fuel entries weight).value.1 =
        lru.cap entries := by
  induction fuel generalizing entries weight with
  | zero => exact ⟨rfl, rfl, hweight, rfl⟩
  | succ fuel ih =>
    rw [evictWhileOver, dropUntil, ← hweight]
    by_cases hover : maxWeight < weight
    · rw [if_pos hover, if_neg (Nat.not_le.mpr hover)]
      have hlast : (lru.popLru entries).1 = (lru.view entries).getLast? := lru.popLru_fst _
      have hview := lru.view_popLru entries
      have hcap := lru.cap_popLru entries
      -- a list whose weight is over the budget is not empty
      cases hpopped : (lru.popLru entries).1 with
      | none =>
        rw [hpopped] at hlast
        rw [List.getLast?_eq_none_iff.mp hlast.symm] at hweight
        exact absurd hover (by simp [hweight])
      | some x =>
        have hsplit := total_dropLast Entry.weight (hlast.symm.trans hpopped)
        rw [← hview, ← hweight] at hsplit
        have hle : x.2.weight ≤ weight := hsplit ▸ Nat.le_add_left _ _
        have hsub : (subUsize usizeMax weight x.2.weight).value =
            total Entry.weight (lru.view (lru.popLru entries).2) := by
          rw [value_subUsize hrange hle]
          omega
        have hstep := ih hsub (by omega)
        rw [hview, hcap] at hstep
        simp only [hpopped, Tracked.value_bind, Tracked.overflowed_bind]
        refine ⟨?_, hstep.2⟩
        rw [hstep.1]
        simp [hle]
    · rw [if_neg hover, if_pos (Nat.not_lt.mp hover)]
      exact ⟨rfl, rfl, hweight, rfl⟩

/-- Pushing a key that is not there takes the weight of the evicted entry off the total. -/
theorem releaseEvicted_push {weight : ℕ} {entries : lru.Cache (Entry V)} (entry : Entry V)
    (hweight : weight = total Entry.weight (lru.view entries)) (hrange : weight ≤ usizeMax)
    (hfind : find key (lru.view entries) = none) :
    (releaseEvicted usizeMax weight (lru.push entries key entry).1).overflowed = false ∧
      (releaseEvicted usizeMax weight (lru.push entries key entry).1).value =
        total Entry.weight (if (lru.view entries).length < lru.cap entries then lru.view entries
          else (lru.view entries).dropLast) := by
  rw [lru.push_fst, hfind]
  by_cases hroom : (lru.view entries).length < lru.cap entries
  · simp only [if_pos hroom]
    exact ⟨rfl, hweight⟩
  · simp only [if_neg hroom]
    -- a full cache has a least recently used entry
    cases hlast : (lru.view entries).getLast? with
    | none =>
      rw [List.getLast?_eq_none_iff.mp hlast] at hroom
      exact absurd (lru.cap_pos entries) hroom
    | some x =>
      have hsplit := total_dropLast Entry.weight hlast
      have hle : x.2.weight ≤ weight := by omega
      refine ⟨by simp [releaseEvicted, hle], ?_⟩
      change (subUsize usizeMax weight x.2.weight).value = _
      rw [value_subUsize hrange hle]
      omega

/-- One more entry within the budget does not overflow the total of the entries that leave it a
place: there are none of them in a cache for one entry. -/
theorem total_add_le {weight : ℕ} (h : Balanced capacity ttl maxWeight cache)
    (hmax : maxWeight ≤ usizeMax) (hroom : capacity = 1 ∨ 2 * maxWeight ≤ usizeMax)
    (hweight : weight ≤ maxWeight) :
    total Entry.weight (if cache.view.length < capacity then cache.view else cache.view.dropLast) +
      weight ≤ usizeMax := by
  have hlen : cache.view.length ≤ capacity := h.cap_eq ▸ lru.length_le cache.entries
  rcases hroom with rfl | hroom
  · have hempty : (if cache.view.length < 1 then cache.view else cache.view.dropLast) = [] := by
      split
      · exact List.length_eq_zero_iff.mp (by omega)
      · exact List.length_eq_zero_iff.mp (by rw [List.length_dropLast]; omega)
    rw [hempty, total_nil]
    omega
  · have hlight : total Entry.weight
        (if cache.view.length < capacity then cache.view else cache.view.dropLast) ≤ maxWeight := by
      refine Nat.le_trans (total_le_of_sublist Entry.weight ?_) (h.weight_eq ▸ h.weight_le)
      split
      · exact List.Sublist.refl _
      · exact List.dropLast_sublist _
    omega

/-- Pushing a key that is not there puts its entry in front of the entries that leave it a place. -/
theorem view_push_new (h : Balanced capacity ttl maxWeight cache) (hfind : find key cache.view = none)
    (entry : Entry V) : lru.view (lru.push cache.entries key entry).2 = (key, entry) ::
      if cache.view.length < capacity then cache.view else cache.view.dropLast := by
  have hnone : find key (lru.view cache.entries) = none := hfind
  rw [lru.view_push, hnone, h.cap_eq]
  rfl

/-- The part of an insertion after the pop: push the entry and evict while over the budget. -/
def place (usizeMax now : ℕ) (key : K) (value : V) (weight : ℕ) (cache : TtlCache lru V) :
    Tracked (TtlCache lru V) := do
  let pushed := lru.push cache.entries key { value, inserted := now, weight }
  let total ← releaseEvicted usizeMax cache.weight pushed.1
  let total ← addUsize usizeMax total weight
  let kept ← evictWhileOver usizeMax cache.maxWeight (lru.view pushed.2).length pushed.2 total
  pure { cache with entries := kept.1, weight := kept.2 }

/-- An insertion that is not refused pops the key and places the entry. -/
theorem insert_of_open (henabled : 0 < cache.ttl) {weight : ℕ} (hweight : weight ≤ cache.maxWeight)
    (key : K) (value : V) : cache.insert usizeMax now key value weight =
      cache.popEntry usizeMax key >>= place usizeMax now key value weight :=
  if_neg (by simp [isEnabled, Nat.ne_of_gt henabled, hweight])

/-- Placing an entry under a new key keeps the books right, if its weight and the weight of the
entries that stay are within the range, and leaves it and the entries behind it that fit. -/
theorem place_balanced (now : ℕ) (h : Balanced capacity ttl maxWeight cache)
    (hmax : maxWeight ≤ usizeMax) (hfind : find key cache.view = none) (value : V) {weight : ℕ}
    (hrange : total Entry.weight (if cache.view.length < capacity then cache.view
      else cache.view.dropLast) + weight ≤ usizeMax) :
    (cache.place usizeMax now key value weight).overflowed = false ∧
      Balanced capacity ttl maxWeight (cache.place usizeMax now key value weight).value ∧
      (cache.place usizeMax now key value weight).value.view =
        Lru.trim (Fits Entry.weight capacity maxWeight) ((key, ⟨value, now, weight⟩) :: cache.view) := by
  set entry : Entry V := ⟨value, now, weight⟩
  set pushed := lru.push cache.entries key entry
  have hcap : lru.cap cache.entries = capacity := h.cap_eq
  have hlen : cache.view.length ≤ capacity := hcap ▸ lru.length_le cache.entries
  have hpos : 0 < capacity := hcap ▸ lru.cap_pos cache.entries
  set rest := if cache.view.length < capacity then cache.view else cache.view.dropLast
  -- what the crate makes a place in front of
  have hfront : lru.view pushed.2 = (key, entry) :: rest := view_push_new h hfind entry
  -- the running total through the release, the addition and the evictions
  obtain ⟨hrelease, hreleased⟩ := releaseEvicted_push entry h.weight_eq
    (Nat.le_trans h.weight_le hmax) hfind
  rw [hcap] at hreleased
  change (releaseEvicted usizeMax cache.weight pushed.1).value = total Entry.weight rest at hreleased
  set released := (releaseEvicted usizeMax cache.weight pushed.1).value
  have hadd : released + weight ≤ usizeMax := hreleased ▸ hrange
  have hsum : (addUsize usizeMax released weight).value = total Entry.weight (lru.view pushed.2) := by
    rw [value_addUsize hadd, hreleased, hfront, total_cons, Nat.add_comm]
  have hinrange : (addUsize usizeMax released weight).value ≤ usizeMax := by
    rw [value_addUsize hadd]
    exact hadd
  obtain ⟨hevict, hkept, htotal, hcapped⟩ := evictWhileOver_spec cache.maxWeight
    (lru.view pushed.2).length hsum hinrange
  have hview : (cache.place usizeMax now key value weight).value.view =
      Lru.trim (fun xs => total Entry.weight xs ≤ maxWeight) ((key, entry) :: rest) := by
    have hplaced : (cache.place usizeMax now key value weight).value.view =
        Lru.trim (fun xs => total Entry.weight xs ≤ cache.maxWeight) (lru.view pushed.2) := hkept
    rwa [h.maxWeight_eq, hfront] at hplaced
  have hfit : total Entry.weight (cache.place usizeMax now key value weight).value.view ≤
      maxWeight := by
    rw [hview]
    exact trim_holds (p := fun xs => total Entry.weight xs ≤ maxWeight) (Nat.zero_le _) _
  refine ⟨?_, ⟨?_, h.ttl_eq, h.maxWeight_eq, htotal, ?_⟩, ?_⟩
  · have hno : decide (usizeMax < released + weight) = false :=
      decide_eq_false (Nat.not_lt.mpr hadd)
    simp only [place, Tracked.overflowed_bind, Tracked.overflowed_pure, overflowed_addUsize]
    rw [hrelease, hno, hevict]
    rfl
  · exact hcapped.trans ((lru.cap_push _ _ _).trans hcap)
  · exact Nat.le_trans (Nat.le_of_eq htotal) hfit
  · rw [hview, trim_fits_cons Entry.weight _ hlen hpos]

/-- An insertion keeps the books right, and in an enabled cache is the one of the recency list. -/
theorem insert_balanced (now : ℕ) (h : Balanced capacity ttl maxWeight cache) (hmax : maxWeight ≤ usizeMax)
    (hroom : ttl = 0 ∨ capacity = 1 ∨ 2 * maxWeight ≤ usizeMax) (key : K) (value : V)
    (weight : ℕ) : (cache.insert usizeMax now key value weight).overflowed = false ∧
      Balanced capacity ttl maxWeight (cache.insert usizeMax now key value weight).value ∧
      (0 < ttl → (cache.insert usizeMax now key value weight).value.view =
        Recency.insert capacity maxWeight now key value weight cache.view) := by
  by_cases hopen : 0 < ttl ∧ weight ≤ maxWeight
  · have hpopped := popEntry_balanced h hmax key
    have hfind : find key (cache.popEntry usizeMax key).value.view = none := by
      rw [popEntry_spec.1]
      exact find_erase key _
    have hplaced := place_balanced now hpopped hmax hfind value
      (total_add_le hpopped hmax (hroom.resolve_left (Nat.ne_of_gt hopen.1)) hopen.2)
    rw [popEntry_spec.1] at hplaced
    rw [insert_of_open (h.ttl_eq.symm ▸ hopen.1) (h.maxWeight_eq.symm ▸ hopen.2)]
    refine ⟨?_, hplaced.2.1, fun _ => ?_⟩
    · rw [Tracked.overflowed_bind, (popEntry_weight h hmax key).1, hplaced.1]
      rfl
    · rw [Recency.insert, if_neg (Nat.not_lt.mpr hopen.2)]
      exact hplaced.2.2
  · have hrefused : (!cache.isEnabled || decide (cache.maxWeight < weight)) = true := by
      rw [isEnabled, h.ttl_eq, h.maxWeight_eq]
      simp
      omega
    rw [insert, if_pos hrefused]
    refine ⟨rfl, h, fun hpos => ?_⟩
    rw [Recency.insert, if_pos (Nat.lt_of_not_le fun hle => hopen ⟨hpos, hle⟩)]
    rfl

/-- A call keeps the books right, and on an enabled cache is the one on the recency list. -/
theorem apply_balanced (now : ℕ) (h : Balanced capacity ttl maxWeight cache) (hmax : maxWeight ≤ usizeMax)
    (hroom : ttl = 0 ∨ capacity = 1 ∨ 2 * maxWeight ≤ usizeMax) (op : CacheOp K V) :
    (cache.apply usizeMax now op).overflowed = false ∧
      Balanced capacity ttl maxWeight (cache.apply usizeMax now op).value.2 ∧
      (0 < ttl → ((cache.apply usizeMax now op).value.1,
          (cache.apply usizeMax now op).value.2.view) =
        Recency.apply capacity ttl maxWeight now op cache.view) := by
  cases op with
  | get key =>
    have hget := get_balanced now h hmax key
    refine ⟨hget.1, hget.2, fun hpos => ?_⟩
    have hrecency := get_eq_recency usizeMax now key (h.ttl_eq.symm ▸ hpos)
    rwa [h.ttl_eq] at hrecency
  | insert key value weight =>
    obtain ⟨hfine, hbalanced, hview⟩ := insert_balanced now h hmax hroom key value weight
    refine ⟨?_, hbalanced, fun hpos => Prod.ext rfl (hview hpos)⟩
    simp [apply, hfine]
  | remove key =>
    refine ⟨?_, popEntry_balanced h hmax key, fun _ => Prod.ext rfl popEntry_spec.1⟩
    simp [apply, remove, (popEntry_weight h hmax key).1]

/-- So does a run. -/
theorem run_balanced (now : ℕ) (h : Balanced capacity ttl maxWeight cache) (hmax : maxWeight ≤ usizeMax)
    (hroom : ttl = 0 ∨ capacity = 1 ∨ 2 * maxWeight ≤ usizeMax)
    (steps : List (ℕ × CacheOp K V)) :
    (cache.run usizeMax now steps).overflowed = false ∧
      Balanced capacity ttl maxWeight (cache.run usizeMax now steps).value.2 ∧
      (0 < ttl → ((cache.run usizeMax now steps).value.1,
          (cache.run usizeMax now steps).value.2.view) =
        Recency.run capacity ttl maxWeight now steps cache.view) := by
  induction steps generalizing now cache with
  | nil => exact ⟨rfl, h, fun _ => rfl⟩
  | cons step steps ih =>
    obtain ⟨elapsed, op⟩ := step
    obtain ⟨hfine, hbalanced, hview⟩ := apply_balanced (now + elapsed) h hmax hroom op
    obtain ⟨hfine', hbalanced', hview'⟩ := ih (now + elapsed) hbalanced
    refine ⟨?_, hbalanced', fun hpos => ?_⟩
    · simp [run, hfine, hfine']
    · have happly := hview hpos
      have hrest := hview' hpos
      rw [Recency.run, ← happly]
      dsimp only
      rw [← hrest]
      rfl

/-! ## A sum that leaves the range -/

/-- Nothing is evicted while the running total is within the budget. -/
theorem evictWhileOver_of_le {fuel weight : ℕ} {entries : lru.Cache (Entry V)}
    (h : weight ≤ maxWeight) :
    evictWhileOver usizeMax maxWeight fuel entries weight = pure (entries, weight) := by
  cases fuel with
  | zero => rfl
  | succ fuel => rw [evictWhileOver, if_neg (Nat.not_lt.mpr h)]

/-- When there is a place for the entry but the sum of the weights leaves the range, nothing is
evicted and the total is too low. -/
theorem place_overflow (now : ℕ) (h : Balanced capacity ttl maxWeight cache)
    (hmax : maxWeight ≤ usizeMax) (hfind : find key cache.view = none)
    (hplace : cache.view.length < capacity) (value : V) {weight : ℕ} (hweight : weight ≤ maxWeight)
    (hover : usizeMax < cache.weight + weight) :
    (cache.place usizeMax now key value weight).value.view =
        (key, ⟨value, now, weight⟩) :: cache.view ∧
      (cache.place usizeMax now key value weight).value.weight < cache.weight + weight := by
  have hpushed : (lru.push cache.entries key ⟨value, now, weight⟩).1 = none := by
    have hnone : find key (lru.view cache.entries) = none := hfind
    rw [lru.push_fst, hnone, h.cap_eq]
    exact if_pos hplace
  have hfront := view_push_new h hfind ⟨value, now, weight⟩
  rw [if_pos hplace] at hfront
  have hle := h.weight_le
  have hwrap : (addUsize usizeMax cache.weight weight).value =
      cache.weight + weight - (usizeMax + 1) := by
    rw [addUsize, Nat.mod_eq_sub_mod (by omega)]
    exact Nat.mod_eq_of_lt (by omega)
  rw [place, hpushed]
  simp only [releaseEvicted, Tracked.value_bind, Tracked.value_pure]
  rw [evictWhileOver_of_le (by rw [h.maxWeight_eq, hwrap]; omega)]
  exact ⟨hfront, hwrap.trans_lt (by omega)⟩

/-- Insertions under two keys of entries as heavy as the whole budget. -/
def overfull (a b : K) (value : V) (maxWeight : ℕ) : List (ℕ × CacheOp K V) :=
  [(0, .insert a value maxWeight), (0, .insert b value maxWeight)]

/-- A first entry within the budget stays. -/
theorem insert_new (lru : Crate K) (now : ℕ) (key : K) (value : V) (hcap : 0 < capacity)
    (httl : 0 < ttl) (hmax : maxWeight ≤ usizeMax) :
    Balanced capacity ttl maxWeight
        ((new lru V capacity ttl maxWeight).insert usizeMax now key value maxWeight).value ∧
      ((new lru V capacity ttl maxWeight).insert usizeMax now key value maxWeight).value.view =
        [(key, ⟨value, now, maxWeight⟩)] := by
  have hnew : Balanced capacity ttl maxWeight (new lru V capacity ttl maxWeight) :=
    balanced_new hcap
  have hpopped := popEntry_balanced hnew hmax key
  have hempty : ((new lru V capacity ttl maxWeight).popEntry usizeMax key).value.view = [] := by
    rw [popEntry_spec.1, view_new]
    rfl
  have hopen : (new lru V capacity ttl maxWeight).insert usizeMax now key value maxWeight =
      (new lru V capacity ttl maxWeight).popEntry usizeMax key >>=
        place usizeMax now key value maxWeight :=
    insert_of_open httl (Nat.le_refl maxWeight) key value
  have hfind : find key ((new lru V capacity ttl maxWeight).popEntry usizeMax key).value.view =
      none := by
    rw [hempty]
    rfl
  have hrange : total Entry.weight
      (if ((new lru V capacity ttl maxWeight).popEntry usizeMax key).value.view.length < capacity
        then ((new lru V capacity ttl maxWeight).popEntry usizeMax key).value.view
        else ((new lru V capacity ttl maxWeight).popEntry usizeMax key).value.view.dropLast) +
      maxWeight ≤ usizeMax := by
    simpa [hempty] using hmax
  obtain ⟨-, hbalanced, hview⟩ := place_balanced now hpopped hmax hfind value hrange
  rw [hempty, trim_of ⟨hcap, Nat.le_refl _⟩] at hview
  rw [hopen]
  exact ⟨hbalanced, hview⟩

/-- When two such weights leave the range, both entries stay and the total is too low. -/
theorem run_overfull (lru : Crate K) {a b : K} (hab : a ≠ b) (value : V) (now : ℕ)
    (hcap : 1 < capacity) (httl : 0 < ttl) (hmax : maxWeight ≤ usizeMax)
    (hover : usizeMax < 2 * maxWeight) :
    ((new lru V capacity ttl maxWeight).run usizeMax now (overfull a b value maxWeight)).value.2.view =
        [(b, ⟨value, now, maxWeight⟩), (a, ⟨value, now, maxWeight⟩)] ∧
      ((new lru V capacity ttl maxWeight).run usizeMax now
        (overfull a b value maxWeight)).value.2.weight < 2 * maxWeight := by
  obtain ⟨hfirst, hview⟩ := insert_new lru now a value (Nat.lt_of_succ_lt hcap) httl hmax
  set first := ((new lru V capacity ttl maxWeight).insert usizeMax now a value maxWeight).value
  have hpopped := popEntry_balanced hfirst hmax b
  have hkept : (first.popEntry usizeMax b).value.view = [(a, ⟨value, now, maxWeight⟩)] := by
    rw [popEntry_spec.1, hview]
    simp [erase, hab]
  have hweight : (first.popEntry usizeMax b).value.weight = maxWeight := by
    rw [hpopped.weight_eq, hkept]
    rfl
  have hsecond := place_overflow now hpopped hmax (by rw [hkept, find, if_neg hab]; rfl)
    (by rw [hkept]; exact hcap) value (Nat.le_refl maxWeight) (by omega)
  rw [hkept, hweight, ← Nat.two_mul] at hsecond
  have hopen : first.insert usizeMax now b value maxWeight =
      first.popEntry usizeMax b >>= place usizeMax now b value maxWeight :=
    insert_of_open (hfirst.ttl_eq.symm ▸ httl) (Nat.le_of_eq hfirst.maxWeight_eq.symm) b value
  change (first.insert usizeMax now b value maxWeight).value.view = _ ∧
    (first.insert usizeMax now b value maxWeight).value.weight < _
  rw [hopen]
  exact hsecond

/-! ## What was inserted last -/

/-- An insertion keeps the budget. -/
theorem maxWeight_insert (value : V) (weight : ℕ) :
    (cache.insert usizeMax now key value weight).value.maxWeight = cache.maxWeight := by
  unfold insert
  split
  · rfl
  · have hspec := @popEntry_spec K _ lru V usizeMax key cache
    exact hspec.2.2

/-- A lookup keeps the budget. -/
theorem maxWeight_get :
    (cache.get usizeMax now key).value.2.maxWeight = cache.maxWeight := by
  unfold get
  split
  · rfl
  · split
    · exact popEntry_spec.2.2
    · rfl

/-- A call keeps the TTL and the budget. -/
theorem limits_apply (usizeMax now : ℕ) (cache : TtlCache lru V) (op : CacheOp K V) :
    (cache.apply usizeMax now op).value.2.ttl = cache.ttl ∧
      (cache.apply usizeMax now op).value.2.maxWeight = cache.maxWeight := by
  cases op with
  | get key => exact ⟨ttl_get, maxWeight_get⟩
  | insert key value weight => exact ⟨ttl_insert, maxWeight_insert value weight⟩
  | remove key => exact ⟨ttl_remove, popEntry_spec.2.2⟩

/-- Every entry is the last accepted insertion under its key. -/
def Latest (last : K → Option (Entry V)) (cache : TtlCache lru V) : Prop :=
  ∀ key entry, (key, entry) ∈ cache.view → last key = some entry

/-- The calls of a run add to the history one by one, and the entries follow it. -/
theorem apply_latest {last : K → Option (Entry V)} (h : Latest last cache) (hpos : 0 < cache.ttl)
    (elapsed : ℕ) (op : CacheOp K V) :
    Latest (Recency.history cache.maxWeight now [(elapsed, op)] last)
      (cache.apply usizeMax (now + elapsed) op).value.2 := by
  intro held entry hmem
  cases op with
  | get key => exact h held entry (get_leaves hmem)
  | insert key value weight =>
    by_cases hheavy : cache.maxWeight < weight
    · have hrefused : cache.insert usizeMax (now + elapsed) key value weight = pure cache :=
        if_pos (by simp [hheavy])
      simp only [Recency.history, if_pos hheavy]
      change (held, entry) ∈ (cache.insert usizeMax (now + elapsed) key value weight).value.view
        at hmem
      rw [hrefused] at hmem
      exact h held entry hmem
    · simp only [Recency.history, if_neg hheavy]
      rcases insert_leaves hmem with ⟨-, hnew⟩ | ⟨hold, hkey⟩
      · obtain ⟨rfl, rfl⟩ := Prod.mk.inj hnew
        exact Function.update_self _ _ _
      · have hne : held ≠ key := hkey.resolve_right (by
          rintro (hzero | hmore)
          · exact absurd hzero (Nat.ne_of_gt hpos)
          · exact hheavy hmore)
        rw [Function.update_of_ne hne]
        exact h held entry hold
  | remove key =>
    obtain ⟨hold, hne⟩ := remove_leaves hmem
    simp only [Recency.history, Function.update_of_ne hne]
    exact h held entry hold

/-- So every entry after a run is the last accepted insertion under its key, and no removal of the
key came after it. -/
theorem run_latest {last : K → Option (Entry V)} (now : ℕ) (h : Latest last cache) (hpos : 0 < cache.ttl)
    (steps : List (ℕ × CacheOp K V)) :
    Latest (Recency.history cache.maxWeight now steps last)
      (cache.run usizeMax now steps).value.2 := by
  induction steps generalizing now cache last with
  | nil => exact h
  | cons step steps ih =>
    obtain ⟨elapsed, op⟩ := step
    obtain ⟨httl, hmaxWeight⟩ := limits_apply usizeMax (now + elapsed) cache op
    have hrest := ih (now + elapsed) (apply_latest h hpos elapsed op) (httl.symm ▸ hpos)
    rw [hmaxWeight] at hrest
    exact hrest

/-! ## What a run can rely on -/

section Runs

variable (lru) (V)

/-- The books of a cache are right after every call of every run, and no arithmetic leaves the
range, exactly if the cache is disabled or holds one entry or the sum of two weights within the
budget is always in the range. -/
theorem accounted_iff [Nontrivial K] [Nonempty V] (hcap : 0 < capacity)
    (hmax : maxWeight ≤ usizeMax) :
    ((∀ (now : ℕ) (steps : List (ℕ × CacheOp K V)), Accounted capacity
        ((new lru V capacity ttl maxWeight).run usizeMax now steps).value.2) ↔
      ttl = 0 ∨ capacity = 1 ∨ 2 * maxWeight ≤ usizeMax) ∧
    (ttl = 0 ∨ capacity = 1 ∨ 2 * maxWeight ≤ usizeMax →
      ∀ (now : ℕ) (steps : List (ℕ × CacheOp K V)),
        ((new lru V capacity ttl maxWeight).run usizeMax now steps).overflowed = false) := by
  have hnew : Balanced capacity ttl maxWeight (new lru V capacity ttl maxWeight) :=
    balanced_new hcap
  refine ⟨⟨fun hall => ?_, fun hroom now steps => ?_⟩, fun hroom now steps => ?_⟩
  · by_contra hno
    rw [not_or, not_or] at hno
    obtain ⟨httl, hone, hover⟩ := hno
    have hmany : 1 < capacity := Nat.lt_of_le_of_ne hcap (Ne.symm hone)
    obtain ⟨a, b, hab⟩ := exists_pair_ne K
    obtain ⟨value⟩ := ‹Nonempty V›
    obtain ⟨hview, hweight⟩ := run_overfull lru hab value 0 hmany (Nat.pos_of_ne_zero httl) hmax
      (Nat.lt_of_not_le hover)
    have heq := (hall 0 (overfull a b value maxWeight)).weight_eq
    rw [hview, total_cons, total_cons, total_nil] at heq
    dsimp only at heq
    omega
  · exact (run_balanced now hnew hmax hroom steps).2.1.accounted
  · exact (run_balanced now hnew hmax hroom steps).1

/-- For example with a budget of half the range. -/
theorem accounted_iff_half :
    ((∀ (now : ℕ) (steps : List (ℕ × CacheOp ℕ ℕ)), Accounted 2
        ((new (listCrate ℕ) ℕ 2 60 3).run 7 now steps).value.2) ↔
      60 = 0 ∨ 2 = 1 ∨ 2 * 3 ≤ 7) ∧
    (60 = 0 ∨ 2 = 1 ∨ 2 * 3 ≤ 7 → ∀ (now : ℕ) (steps : List (ℕ × CacheOp ℕ ℕ)),
      ((new (listCrate ℕ) ℕ 2 60 3).run 7 now steps).overflowed = false) :=
  accounted_iff (listCrate ℕ) ℕ (by decide) (by decide)

/-- Two entries of half the range in a cache without a limit on the weight: the total reads zero. -/
theorem accounted_overfull :
    ¬ Accounted 2 ((new (listCrate ℕ) ℕ 2 60 (2 ^ 64 - 1)).run (2 ^ 64 - 1) 0
      [(0, .insert 0 0 (2 ^ 63)), (0, .insert 1 0 (2 ^ 63))]).value.2 := by
  intro h
  exact absurd h.weight_eq (by decide)

/-- An enabled cache answers every run as the recency list and holds its entries, exactly if it
holds one entry or the sum of two weights within the budget is always in the range. On the list, an
insertion within the budget leaves the longest part from the front that fits. In every run, what
the cache holds under a key is its last accepted insertion. -/
theorem refines_iff [Nontrivial K] [Nonempty V] (hcap : 0 < capacity) (httl : 0 < ttl)
    (hmax : maxWeight ≤ usizeMax) :
    ((∀ (now : ℕ) (steps : List (ℕ × CacheOp K V)),
        (((new lru V capacity ttl maxWeight).run usizeMax now steps).value.1,
          ((new lru V capacity ttl maxWeight).run usizeMax now steps).value.2.view) =
        Recency.run capacity ttl maxWeight now steps []) ↔
      capacity = 1 ∨ 2 * maxWeight ≤ usizeMax) ∧
    (capacity = 1 ∨ 2 * maxWeight ≤ usizeMax →
      ∀ (now : ℕ) (steps : List (ℕ × CacheOp K V)),
        ((new lru V capacity ttl maxWeight).run usizeMax now steps).overflowed = false) ∧
    (∀ (now : ℕ) (key : K) (value : V) (weight : ℕ) (xs : List (K × Entry V)),
      weight ≤ maxWeight → ∃ rest,
        Recency.insert capacity maxWeight now key value weight xs =
            (key, ⟨value, now, weight⟩) :: rest ∧
          rest <+: erase key xs ∧
          Fits Entry.weight capacity maxWeight ((key, ⟨value, now, weight⟩) :: rest) ∧
          ∀ longer, longer <+: erase key xs →
            Fits Entry.weight capacity maxWeight ((key, ⟨value, now, weight⟩) :: longer) →
            longer <+: rest) ∧
    (∀ (now : ℕ) (steps : List (ℕ × CacheOp K V)) (key : K) (entry : Entry V),
      (key, entry) ∈ ((new lru V capacity ttl maxWeight).run usizeMax now steps).value.2.view →
        Recency.history maxWeight now steps (fun _ => none) key = some entry) := by
  have hnew : Balanced capacity ttl maxWeight (new lru V capacity ttl maxWeight) :=
    balanced_new hcap
  have hview : (new lru V capacity ttl maxWeight).view = [] := view_new _ _ _
  refine ⟨⟨fun hall => ?_, fun hroom now steps => ?_⟩, fun hroom now steps => ?_, ?_, ?_⟩
  · by_contra hno
    rw [not_or] at hno
    obtain ⟨hone, hover⟩ := hno
    have hmany : 1 < capacity := Nat.lt_of_le_of_ne hcap (Ne.symm hone)
    obtain ⟨a, b, hab⟩ := exists_pair_ne K
    obtain ⟨value⟩ := ‹Nonempty V›
    obtain ⟨hboth, -⟩ := run_overfull lru hab value 0 hmany httl hmax (Nat.lt_of_not_le hover)
    have hspec := congrArg Prod.snd (hall 0 (overfull a b value maxWeight))
    -- the list would have dropped the first entry
    obtain ⟨rest, hinsert, -, hfits, -⟩ := Recency.insert_eq hcap 0 b value (Nat.le_refl maxWeight)
      (Recency.insert capacity maxWeight 0 a value maxWeight [])
    have hlist : (Recency.run capacity ttl maxWeight 0 (overfull a b value maxWeight) []).2 =
        (b, ⟨value, 0, maxWeight⟩) :: rest := hinsert
    rw [hlist] at hspec
    have hlight := hfits.2
    rw [← hspec, hboth, total_cons, total_cons, total_nil] at hlight
    dsimp only at hlight
    omega
  · have hrun := (run_balanced now hnew hmax (Or.inr hroom) steps).2.2 httl
    rwa [hview] at hrun
  · exact (run_balanced now hnew hmax (Or.inr hroom) steps).1
  · intro now key value weight xs hweight
    exact Recency.insert_eq hcap now key value hweight xs
  · intro now steps
    have hlatest : Latest (fun _ => none) (new lru V capacity ttl maxWeight) := by
      intro key entry hmem
      rw [hview] at hmem
      contradiction
    exact run_latest now hlatest httl steps

/-- For example with a budget of half the range. -/
theorem refines_iff_half :
    ((∀ (now : ℕ) (steps : List (ℕ × CacheOp ℕ ℕ)),
        (((new (listCrate ℕ) ℕ 2 60 3).run 7 now steps).value.1,
          ((new (listCrate ℕ) ℕ 2 60 3).run 7 now steps).value.2.view) =
        Recency.run 2 60 3 now steps []) ↔
      2 = 1 ∨ 2 * 3 ≤ 7) ∧
    (2 = 1 ∨ 2 * 3 ≤ 7 → ∀ (now : ℕ) (steps : List (ℕ × CacheOp ℕ ℕ)),
      ((new (listCrate ℕ) ℕ 2 60 3).run 7 now steps).overflowed = false) := by
  obtain ⟨hrefines, hrange, -⟩ := @refines_iff ℕ _ (listCrate ℕ) ℕ 7 2 60 3 _ _ (by decide)
    (by decide) (by decide)
  exact ⟨hrefines, hrange⟩

/-- Two entries of half the range in a cache without a limit on the weight: the first one, which
the list has dropped, is still found. -/
theorem refines_overfull :
    ((new (listCrate ℕ) ℕ 2 60 (2 ^ 64 - 1)).run (2 ^ 64 - 1) 0
        [(0, .insert 0 0 (2 ^ 63)), (0, .insert 1 0 (2 ^ 63)), (0, .get 0)]).value.1 =
      [none, none, some 0] ∧
    (Recency.run 2 60 (2 ^ 64 - 1) 0
        [(0, .insert 0 0 (2 ^ 63)), (0, .insert 1 0 (2 ^ 63)), (0, .get 0)] []).1 =
      ([none, none, none] : List (Option ℕ)) := by
  decide

end Runs

end TtlCache

end HdfsS3Gateway
