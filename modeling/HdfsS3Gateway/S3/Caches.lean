import HdfsS3Gateway.Config
import HdfsS3Gateway.Core.Cache
import HdfsS3Gateway.Core.Listing

/-!
# The gateway's caches

Four TTL caches keyed by HDFS path: file metadata, known-missing paths, block maps and directory
listings. They are addressed by name, each name with its own type of values, so that a fact about
one cache operation is stated once for all four.
-/

namespace HdfsS3Gateway

open Lru

/-- `FileMeta`: the metadata of a path that the S3 layer needs. -/
structure FileMeta where
  length : UInt64
  isdir : Bool
  modificationTime : UInt64
  deriving DecidableEq, Repr

/-- `FileReader`: the block map of an open file. `opened` numbers the openings of the path that the
upstream can tell apart; no code reads it. -/
structure FileReader where
  path : Str
  fileLength : ℕ
  opened : ℕ
  deriving DecidableEq, Repr

/-- `CachedReader`: a reader and the identity it was opened for. -/
structure CachedReader where
  reader : FileReader
  length : UInt64
  modificationTime : UInt64
  deriving DecidableEq, Repr

/-- The four caches. -/
inductive CacheName
  | metadata
  | negative
  | blocks
  | dirs
  deriving DecidableEq, Repr

/-- The values of each cache. -/
def CacheName.Value : CacheName → Type
  | metadata => FileMeta
  | negative => Unit
  | blocks => CachedReader
  | dirs => DirListing

instance : (name : CacheName) → DecidableEq name.Value
  | .metadata => inferInstanceAs (DecidableEq FileMeta)
  | .negative => inferInstanceAs (DecidableEq Unit)
  | .blocks => inferInstanceAs (DecidableEq CachedReader)
  | .dirs => inferInstanceAs (DecidableEq DirListing)

/-- `capacity`. -/
def capacity (n : ℕ) : ℕ := max n 1

/-- `ttl`: a TTL in nanoseconds, zero when caching is disabled. -/
def ttl (config : CacheConfig) (millis : ℕ) : ℕ :=
  if config.enabled then millis * 1000000 else 0

/-- The TTL setting of each cache, in milliseconds. -/
def CacheName.ttlMs (config : CacheConfig) : CacheName → ℕ
  | metadata => config.metadataTtlMs
  | negative => config.negativeTtlMs
  | blocks => config.blocksTtlMs
  | dirs => config.listingTtlMs

/-- The capacity setting of each cache, which is also its weight budget. -/
def CacheName.capacitySetting (config : CacheConfig) : CacheName → ℕ
  | metadata | negative => config.metadataCapacity
  | blocks => config.blocksCapacity
  | dirs => config.listingCapacityEntries

/-- `Caches`: the four caches, by name. -/
structure Caches (lru : Crate Str) where
  cache : (name : CacheName) → TtlCache lru name.Value

namespace Caches

variable {lru : Crate Str}

/-- `Caches::new`. -/
def new (lru : Crate Str) (config : CacheConfig) : Caches lru where
  cache name := TtlCache.new lru name.Value (capacity (name.capacitySetting config))
    (ttl config (name.ttlMs config)) (name.capacitySetting config)

/-- Replace one cache. -/
def set (caches : Caches lru) (name : CacheName) (cache : TtlCache lru name.Value) : Caches lru where
  cache := Function.update caches.cache name cache

/-- `cache.get(path)` on the named cache. -/
def get (usizeMax now : ℕ) (name : CacheName) (path : Str) (caches : Caches lru) :
    Option name.Value × Caches lru :=
  let result := ((caches.cache name).get usizeMax now path).value
  (result.1, caches.set name result.2)

/-- `cache.insert(path, value, weight)` on the named cache. -/
def insert (usizeMax now : ℕ) (name : CacheName) (path : Str) (value : name.Value) (weight : ℕ)
    (caches : Caches lru) : Caches lru :=
  caches.set name ((caches.cache name).insert usizeMax now path value weight).value

/-- `cache.remove(path)` on the named cache. -/
def remove (usizeMax : ℕ) (name : CacheName) (path : Str) (caches : Caches lru) : Caches lru :=
  caches.set name ((caches.cache name).remove usizeMax path).value

/-! ## Entries -/

/-- The named cache holds this value under this path since this instant. -/
def Holds (caches : Caches lru) (name : CacheName) (path : Str) (value : name.Value)
    (inserted : ℕ) : Prop :=
  ∃ weight, (path, (⟨value, inserted, weight⟩ : Entry name.Value)) ∈ (caches.cache name).view

/-- The TTL of each cache is the configured one. -/
def HasTtl (caches : Caches lru) (ttlOf : CacheName → ℕ) : Prop :=
  ∀ name, (caches.cache name).ttl = ttlOf name

variable {usizeMax now : ℕ} {name : CacheName} {path : Str} {caches : Caches lru}

@[simp] theorem set_self (cache : TtlCache lru name.Value) :
    (caches.set name cache).cache name = cache := Function.update_self ..

/-- Replacing one cache leaves the others. -/
theorem set_of_ne {name' : CacheName} (h : name' ≠ name) (cache : TtlCache lru name.Value) :
    (caches.set name cache).cache name' = caches.cache name' := Function.update_of_ne h _ _

/-- Fresh caches hold nothing. -/
theorem not_holds_new {config : CacheConfig} {value : name.Value} {t : ℕ} :
    ¬ (new lru config).Holds name path value t := by
  intro h
  obtain ⟨weight, hmem⟩ := h
  rw [new, TtlCache.view_new] at hmem
  contradiction

/-- Replacing a cache by one with the same TTL keeps all TTLs. -/
theorem HasTtl.set {ttlOf : CacheName → ℕ} (h : caches.HasTtl ttlOf)
    {cache : TtlCache lru name.Value} (hcache : cache.ttl = (caches.cache name).ttl) :
    (caches.set name cache).HasTtl ttlOf := by
  intro name'
  by_cases hname : name' = name
  · subst hname
    rw [set_self, hcache, h]
  · rw [set_of_ne hname, h]

/-- A hit is held since less than the TTL. -/
theorem get_hit {value : name.Value} (h : (caches.get usizeMax now name path).1 = some value) :
    ∃ t, caches.Holds name path value t ∧ now - t < (caches.cache name).ttl := by
  obtain ⟨e, hmem, rfl, hlive⟩ := TtlCache.get_hit h
  exact ⟨e.inserted, ⟨e.weight, hmem⟩, hlive⟩

/-- With all TTLs zero a lookup misses. -/
theorem get_of_disabled (h : caches.HasTtl fun _ => 0) :
    (caches.get usizeMax now name path).1 = none := by
  rw [get, TtlCache.get_of_disabled (h name)]
  rfl

/-- What is held after a lookup was held before. -/
theorem holds_of_get {name' : CacheName} {path' : Str} {value : name'.Value} {t : ℕ}
    (h : (caches.get usizeMax now name path).2.Holds name' path' value t) :
    caches.Holds name' path' value t := by
  obtain ⟨weight, hmem⟩ := h
  refine ⟨weight, ?_⟩
  by_cases hname : name' = name
  · subst hname
    rw [get, set_self] at hmem
    exact TtlCache.get_leaves hmem
  · rwa [get, set_of_ne hname] at hmem

/-- What is held after an insertion is the inserted value, stamped now, or was held before, under
another path unless the insertion was refused. -/
theorem holds_of_insert {inserted : name.Value} {weight : ℕ} {name' : CacheName} {path' : Str}
    {value : name'.Value} {t : ℕ}
    (h : (caches.insert usizeMax now name path inserted weight).Holds name' path' value t) :
    (∃ heq : name' = name, path' = path ∧ heq ▸ value = inserted ∧ t = now) ∨
      caches.Holds name' path' value t := by
  obtain ⟨weight', hmem⟩ := h
  by_cases hname : name' = name
  · subst hname
    rw [insert, set_self] at hmem
    rcases TtlCache.insert_leaves hmem with ⟨-, heq⟩ | ⟨hmem, -⟩
    · simp only [Prod.mk.injEq, Entry.mk.injEq] at heq
      exact Or.inl ⟨rfl, heq.1, heq.2.1, heq.2.2.1⟩
    · exact Or.inr ⟨weight', hmem⟩
  · rw [insert, set_of_ne hname] at hmem
    exact Or.inr ⟨weight', hmem⟩

/-- What is held after a removal was held before, in another cache or under another path. -/
theorem holds_of_remove {name' : CacheName} {path' : Str} {value : name'.Value} {t : ℕ}
    (h : (caches.remove usizeMax name path).Holds name' path' value t) :
    caches.Holds name' path' value t ∧ ¬ (name' = name ∧ path' = path) := by
  obtain ⟨weight, hmem⟩ := h
  by_cases hname : name' = name
  · subst hname
    rw [remove, set_self] at hmem
    obtain ⟨hmem, hne⟩ := TtlCache.remove_leaves hmem
    exact ⟨⟨weight, hmem⟩, fun hcon => hne hcon.2⟩
  · rw [remove, set_of_ne hname] at hmem
    exact ⟨⟨weight, hmem⟩, fun hcon => hname hcon.1⟩

/-- Only enabled caches hold anything. -/
def Enabled (caches : Caches lru) : Prop :=
  ∀ name path value t, caches.Holds name path value t → (caches.cache name).ttl ≠ 0

/-- What an insertion adds, it adds to an enabled cache. -/
theorem Enabled.insert (h : caches.Enabled) {inserted : name.Value} {weight : ℕ} :
    (caches.insert usizeMax now name path inserted weight).Enabled := by
  intro name' path' value t hheld
  obtain ⟨weight', hmem⟩ := hheld
  by_cases hname : name' = name
  · subst hname
    rw [Caches.insert, set_self] at hmem ⊢
    rw [TtlCache.ttl_insert]
    rcases TtlCache.insert_leaves hmem with ⟨henabled, -⟩ | ⟨hold, -⟩
    · exact henabled
    · exact h name' path' value t ⟨weight', hold⟩
  · rw [Caches.insert, set_of_ne hname] at hmem ⊢
    exact h name' path' value t ⟨weight', hmem⟩

/-- The operations keep the TTLs. -/
theorem HasTtl.get {ttlOf : CacheName → ℕ} (h : caches.HasTtl ttlOf) :
    (caches.get usizeMax now name path).2.HasTtl ttlOf := h.set TtlCache.ttl_get

theorem HasTtl.insert {ttlOf : CacheName → ℕ} (h : caches.HasTtl ttlOf) {value : name.Value}
    {weight : ℕ} : (caches.insert usizeMax now name path value weight).HasTtl ttlOf :=
  h.set TtlCache.ttl_insert

theorem HasTtl.remove {ttlOf : CacheName → ℕ} (h : caches.HasTtl ttlOf) :
    (caches.remove usizeMax name path).HasTtl ttlOf := h.set TtlCache.ttl_remove

end Caches

end HdfsS3Gateway
