import HdfsS3Gateway.Core.CacheRuns
import HdfsS3Gateway.S3.Transparency

/-!
# The memory of the caches

The caches of the gateway stay within their settings, in every run: the number of entries of each, and
for the directory cache also the number of names in all listings it holds and the size of the largest
one. The gateway inserts every value with its own weight, so the weights that the caches track are those
of what they hold, and no sum of them leaves the range of a `usize` while the settings are at most half
of it.
-/

namespace HdfsS3Gateway

open Interaction Lru

/-- The weight of a value: one, and the number of names of a listing. -/
def CacheName.weightOf : (name : CacheName) → name.Value → ℕ
  | metadata, _ | negative, _ | blocks, _ => 1
  | dirs, listing => listing.files.length + listing.dirs.length

namespace Caches

variable {lru : Crate Str} {config : CacheConfig} {usizeMax : ℕ} {caches : Caches lru}

/-- The caches hold no more than their settings say, and track what they hold. -/
structure WithinLimits (config : CacheConfig) (usizeMax : ℕ) (caches : Caches lru) : Prop where
  distinct : ∀ name, ((caches.cache name).view.map Prod.fst).Nodup
  entries_le : ∀ name, (caches.cache name).view.length ≤ capacity (name.capacitySetting config)
  total_le : ∀ name, total (fun entry => name.weightOf entry.value) (caches.cache name).view ≤
    name.capacitySetting config
  listing_le : ∀ x ∈ (caches.cache .dirs).view, CacheName.dirs.weightOf x.2.value ≤
    config.listingMaxDirEntries
  tracked : ∀ name, (caches.cache name).weight =
    total (fun entry => name.weightOf entry.value) (caches.cache name).view
  no_overflow : ∀ name now op, ((caches.cache name).apply usizeMax now op).overflowed = false
  disabled : config.enabled = false → ∀ name, (caches.cache name).view = []

/-- An entry has the weight of its value, and a listing is not too large to be cached. -/
def Weighed (config : CacheConfig) (name : CacheName) (value : name.Value) (weight : ℕ) : Prop :=
  weight = name.weightOf value ∧ (name = .dirs → weight ≤ config.listingMaxDirEntries)

/-- The invariant of one cache: its books are right, and it holds weighed entries only. -/
structure Kept (config : CacheConfig) (name : CacheName) (cache : TtlCache lru name.Value) : Prop where
  balanced : cache.Balanced (capacity (name.capacitySetting config)) (ttl config (name.ttlMs config))
    (name.capacitySetting config)
  weighed : ∀ x ∈ cache.view, Weighed config name x.2.value x.2.weight
  disabled : ttl config (name.ttlMs config) = 0 → cache.view = []

/-- The settings are at most half of `usize::MAX`. -/
def Fitting (config : CacheConfig) (usizeMax : ℕ) : Prop :=
  ∀ name : CacheName, 2 * name.capacitySetting config ≤ usizeMax

theorem kept_new (name : CacheName) : Kept config name ((Caches.new lru config).cache name) where
  balanced := TtlCache.balanced_new (Nat.lt_of_lt_of_le Nat.zero_lt_one (Nat.le_max_right _ _))
  weighed x hx := by
    change x ∈ (TtlCache.new lru name.Value _ _ _).view at hx
    rw [TtlCache.view_new] at hx
    contradiction
  disabled _ := TtlCache.view_new _ _ _

/-- What a cache without its entries of one key holds is weighed. -/
theorem Kept.of_leaves {name : CacheName} {cache next : TtlCache lru name.Value}
    (h : Kept config name cache)
    (hbalanced : next.Balanced (capacity (name.capacitySetting config))
      (ttl config (name.ttlMs config)) (name.capacitySetting config))
    (hleaves : ∀ x ∈ next.view, x ∈ cache.view ∨
      (cache.ttl ≠ 0 ∧ Weighed config name x.2.value x.2.weight)) : Kept config name next where
  balanced := hbalanced
  weighed x hx := (hleaves x hx).elim (h.weighed x) And.right
  disabled h0 := by
    rw [List.eq_nil_iff_forall_not_mem]
    intro x hx
    rcases hleaves x hx with hx | ⟨hne, -⟩
    · rw [h.disabled h0] at hx
      contradiction
    · exact hne (h.balanced.ttl_eq.trans h0)

section Operations

variable {name : CacheName} {cache : TtlCache lru name.Value} (hfit : Fitting config usizeMax)
  (h : Kept config name cache) (now : ℕ) (path : Str)
include hfit h

theorem kept_get : Kept config name (cache.get usizeMax now path).value.2 :=
  h.of_leaves (TtlCache.get_balanced now h.balanced (by have := hfit name; omega) path).2
    fun _ hx => .inl (TtlCache.get_leaves hx)

theorem kept_remove : Kept config name (cache.remove usizeMax path).value :=
  h.of_leaves (TtlCache.popEntry_balanced h.balanced (by have := hfit name; omega) path)
    fun _ hx => .inl (TtlCache.remove_leaves hx).1

theorem kept_insert {value : name.Value} {weight : ℕ} (hweighed : Weighed config name value weight) :
    Kept config name (cache.insert usizeMax now path value weight).value := by
  have hbalanced := (TtlCache.insert_balanced now h.balanced (by have := hfit name; omega)
    (.inr (.inr (hfit name))) path value weight).2.1
  refine h.of_leaves hbalanced fun x hx => ?_
  rcases TtlCache.insert_leaves hx with ⟨hne, rfl⟩ | ⟨hx, -⟩
  · exact .inr ⟨hne, hweighed⟩
  · exact .inl hx

end Operations

/-- Replacing one cache leaves the others. -/
theorem kept_set (h : ∀ name, Kept config name (caches.cache name)) {name : CacheName}
    {cache : TtlCache lru name.Value} (hcache : Kept config name cache) (other : CacheName) :
    Kept config other ((caches.set name cache).cache other) := by
  by_cases heq : other = name
  · subst heq
    rwa [set_self]
  · rw [set_of_ne heq]
    exact h other

/-- The total of the weights of weighed entries. -/
theorem Kept.total_eq {name : CacheName} {cache : TtlCache lru name.Value} (h : Kept config name cache) :
    total Entry.weight cache.view = total (fun entry => name.weightOf entry.value) cache.view := by
  unfold total
  congr 1
  exact List.map_congr_left fun x hx => (h.weighed x hx).1

/-- Caches that all keep the invariant are within their limits. -/
theorem withinLimits (hfit : Fitting config usizeMax) (h : ∀ name, Kept config name (caches.cache name)) :
    caches.WithinLimits config usizeMax where
  distinct _ := TtlCache.nodup_view
  entries_le name := (h name).balanced.accounted.length_le
  total_le name := by
    rw [← (h name).total_eq, ← (h name).balanced.weight_eq]
    exact (h name).balanced.weight_le
  listing_le x hx := by
    obtain ⟨hweight, hle⟩ := (h .dirs).weighed x hx
    exact hweight ▸ hle rfl
  tracked name := (h name).balanced.weight_eq.trans (h name).total_eq
  no_overflow name now op := (TtlCache.apply_balanced now (h name).balanced
    (by have := hfit name; omega) (.inr (.inr (hfit name))) op).1
  disabled hoff name := (h name).disabled (if_neg (by simp [hoff]))

end Caches

namespace HdfsGateway

variable {self : HdfsGateway} {H : Type} {hdfs : Hdfs H}

/-- The caches keep their invariants. -/
def keptRely (self : HdfsGateway) (hdfs : Hdfs H) : Rely (gatewayMachine self.crates hdfs) where
  inv w := ∀ name, Caches.Kept self.config.cache name (w.caches.cache name)
  later _ _ _ := True
  refl _ _ := trivial
  trans _ _ := trivial
  outside hinv hout := by
    refine ⟨?_, fun _ => trivial⟩
    rcases hout with ⟨d, rfl⟩ | ⟨h, -, rfl⟩ <;> exact hinv

section Keeps

variable (hfit : Caches.Fitting self.config.cache self.crates.usizeMax)
include hfit

/-- A command keeps the invariants if it inserts values with their weights. -/
theorem keeps_command {c : Cmd} (hinsert : ∀ name path value weight,
    c = .cacheInsert name path value weight → Caches.Weighed self.config.cache name value weight) :
    (keptRely self hdfs).Keeps (Prog.perform c) := by
  intro tid w
  apply Prog.ensures_perform
  intro w' r w'' _ hinv hexec
  refine ⟨?_, fun _ _ => trivial, fun _ _ => trivial⟩
  obtain ⟨-, rfl⟩ := hexec
  cases c with
  | cacheGet name path => exact Caches.kept_set hinv (Caches.kept_get hfit (hinv name) _ _)
  | cacheRemove name path => exact Caches.kept_set hinv (Caches.kept_remove hfit (hinv name) _)
  | upstream u => exact hinv
  | cacheInsert name path value weight =>
    exact Caches.kept_set hinv
      (Caches.kept_insert hfit (hinv name) _ _ (hinsert name path value weight rfl))

theorem reads_keep : ReadsKeep (keptRely self hdfs) := fun _ hc =>
  keeps_command hfit fun name path value weight heq => absurd heq (hc name path value weight)

theorem keeps_insert {name : CacheName} {path : Str} {value : name.Value} {weight : ℕ}
    (h : Caches.Weighed self.config.cache name value weight) :
    (keptRely self hdfs).Keeps (cacheInsert name path value weight) := by
  apply keeps_command hfit
  intro name' path' value' weight' heq
  obtain ⟨rfl, -, hvalue, rfl⟩ := Cmd.cacheInsert.inj heq
  rwa [← eq_of_heq hvalue]

/-- The metadata of a path weighs one, and so does that it is missing. -/
theorem keeps_fileMeta (path : Str) : (keptRely self hdfs).Keeps (self.fileMeta path) := by
  have hstat : (keptRely self hdfs).Keeps (self.statFile path) := by
    apply Rely.keeps_bind (keeps_callUpstream (reads_keep hfit) _)
    intro result
    split
    · exact Rely.keeps_bind (keeps_insert hfit ⟨rfl, nofun⟩) fun _ => Rely.keeps_pure _
    · exact Rely.keeps_bind (keeps_insert hfit ⟨rfl, nofun⟩) fun _ => Rely.keeps_pure _
    · exact Rely.keeps_pure _
  apply Rely.keeps_bind (keeps_cacheGet (reads_keep hfit) _ _)
  intro found
  split
  · exact Rely.keeps_pure _
  · apply Rely.keeps_bind (keeps_cacheGet (reads_keep hfit) _ _)
    intro missing
    split
    · exact Rely.keeps_pure _
    · exact hstat

/-- So does a reader. -/
theorem keeps_openReader (path : Str) (label : FileMeta) :
    (keptRely self hdfs).Keeps (self.openReader path label) := by
  have hread : (keptRely self hdfs).Keeps (self.readFile path label) := by
    apply Rely.keeps_bind (keeps_callUpstream (reads_keep hfit) _)
    intro result
    split
    · exact Rely.keeps_bind (keeps_insert hfit ⟨rfl, nofun⟩) fun _ => Rely.keeps_pure _
    · exact Rely.keeps_bind (keeps_cacheRemove (reads_keep hfit) _ _) fun _ => Rely.keeps_pure _
  apply Rely.keeps_bind (keeps_cacheGet (reads_keep hfit) _ _)
  intro found
  split
  · split
    · exact Rely.keeps_pure _
    · exact Rely.keeps_bind (keeps_cacheRemove (reads_keep hfit) _ _) fun _ => hread
  · exact hread

/-- A listing weighs its names, and one that is too large is not inserted. -/
theorem keeps_fetchDir (dir : Str) : (keptRely self hdfs).Keeps (self.fetchDir dir) := by
  apply Rely.keeps_bind (keeps_callUpstream (reads_keep hfit) _)
  intro result
  split
  · exact Rely.keeps_pure _
  · dsimp only
    split
    · rename_i hle
      exact Rely.keeps_bind (keeps_insert hfit ⟨rfl, fun _ => hle⟩) fun _ => Rely.keeps_pure _
    · exact Rely.keeps_pure _

theorem keeps_getObject {input : GetObjectInput} : (keptRely self hdfs).Keeps (self.getObject input) := by
  unfold getObject
  split
  · exact Rely.keeps_pure _
  · apply Rely.keeps_bind (keeps_fileMeta hfit _)
    intro status
    split
    · exact Rely.keeps_pure _
    · split
      · exact Rely.keeps_pure _
      · exact keeps_openObject (reads_keep hfit) (keeps_openReader hfit _ _)

/-- Every request keeps the invariants. -/
theorem keeps_serve (req : S3Request) : (keptRely self hdfs).Keeps (self.serve req) := by
  cases req with
  | headObject input =>
    exact Rely.keeps_bind (keeps_headObject (keeps_fileMeta hfit)) fun _ => Rely.keeps_pure _
  | getObject input polls =>
    refine Rely.keeps_bind (Rely.keeps_bind (keeps_getObject hfit) fun result => ?_) fun _ =>
      Rely.keeps_pure _
    split
    · exact Rely.keeps_pure _
    · exact Rely.keeps_bind (keeps_drain (reads_keep hfit) _ _ _ _) fun _ => Rely.keeps_pure _
  | listObjectsV2 input fuel =>
    exact Rely.keeps_bind (keeps_listObjectsV2
      (fun dir => keeps_listDir (reads_keep hfit) (keeps_fetchDir hfit dir)) _ _) fun _ =>
        Rely.keeps_pure _

end Keeps

/-- The caches stay within their settings. In every state that any interleaving of requests, time and
changes of HDFS reaches, if the settings are at most half of `usize::MAX`: no cache holds a path twice or
more entries than its setting, the listings of the directory cache have together no more names than its
setting, and none has more than a listing that is cached may have; the tracked weights are exact, no
cache call that comes next leaves the range of a `usize`, and a gateway without caching holds nothing. -/
theorem cached_within_limits {now : ℕ} {start : H}
    (hfit : Caches.Fitting self.config.cache self.crates.usizeMax)
    {s : Pool Cmd Cmd.Resp (World self.crates H) S3Request Response}
    (hs : self.Reachable hdfs now start s) :
    s.world.caches.WithinLimits self.config.cache self.crates.usizeMax :=
  Caches.withinLimits hfit (hs.inv (keptRely self hdfs) (fun _ _ _ _ => True)
    (fun name => Caches.kept_new name) fun tid req w _ => keeps_serve hfit req tid w)

/-- After a HEAD of `/f` the metadata cache holds one entry, of at most 100000. -/
theorem cached_within_limits_head :
    let n : StaticHdfs := ⟨fun path => .ok ⟨path, 3, false, 5⟩, fun path => .ok ⟨path, 3, 0⟩,
      fun _ => .ok [], fun _ _ _ _ => none⟩
    ∃ s, reference.Reachable n.hdfs 0 () s ∧ (s.world.caches.cache .metadata).view.length = 1 ∧
      s.world.caches.WithinLimits reference.config.cache reference.crates.usizeMax := by
  intro n
  have hinit : reference.Reachable n.hdfs 0 () _ := .init
  have hreply : ∀ d u, n.hdfs.answer d u ((fun _ => n.reply) d u) := fun _ _ => rfl
  have hrun := (hinit.start (.headObject { bucket := [0x62], key := [0x66] })).moves _ hreply 0 4
  exact ⟨_, hrun, by decide +kernel, cached_within_limits (fun name => by cases name <;> decide) hrun⟩

end HdfsGateway

end HdfsS3Gateway
