import HdfsS3Gateway.S3.Validity
import Mathlib.Order.CompletePartialOrder

/-!
# Caches are transparent on an unchanging namespace

Over a fixed namespace every cached value is what HDFS would answer again. A program is transparent
if it returns, under any interleaving, what it returns when every lookup misses; this is closed
under sequencing and handlers, so it only has to be shown where a cache is looked up. The invariant
is that the caches hold genuine values only.
-/

namespace HdfsS3Gateway

open Interaction

/-- A fixed namespace: the answer to every call, whenever it is made. The answer to a `read` does
not depend on what the request knows about the file. -/
structure StaticHdfs where
  stat : Str → Except HdfsError FileStatus
  openFile : Str → Except HdfsError FileReader
  list : Str → Except HdfsError (List FileStatus)
  chunk : FileReader → ℕ → ℕ → ℕ → Option (Chunk HdfsError)

namespace StaticHdfs

/-- The answer to a call. -/
def reply (n : StaticHdfs) : (u : Upstream) → u.Reply
  | .getFileInfo path => n.stat path
  | .read path _ => n.openFile path
  | .listStatus path => n.list path
  | .pollRange reader start len position => n.chunk reader start len position

/-- The namespace as a behaviour of HDFS. -/
def hdfs (n : StaticHdfs) : Hdfs Unit := .fixed n.reply

/-- The responses to all commands when every lookup misses. -/
def missing (n : StaticHdfs) : (c : Cmd) → c.Resp
  | .cacheGet _ _ => none
  | .cacheInsert _ _ _ _ | .cacheRemove _ _ => ()
  | .upstream u => n.reply u

/-- A value that HDFS would answer again. -/
def Genuine (n : StaticHdfs) (mapper : PathMapper) : (name : CacheName) → Str → name.Value → Prop
  | .metadata, path, m => ∃ status, n.stat path = .ok status ∧
      m = (⟨status.length, status.isdir, status.modificationTime⟩ : FileMeta)
  | .negative, path, _ => ∃ missing, n.stat path = .error (.fileNotFound missing)
  | .blocks, path, cached => n.openFile path = .ok (CachedReader.reader cached)
  | .dirs, path, listing => ∃ statuses, n.list path = .ok statuses ∧
      listing = listingFromStatuses statuses mapper

variable (n : StaticHdfs) (self : HdfsGateway)

/-- The caches hold genuine values only. -/
def validity : Validity n.hdfs (gatewayMachine self.crates n.hdfs) where
  Valid _ := n.Genuine self.mapper
  mono _ h := h
  exec h := h
  outside h := h
  change _ := le_refl _

/-- Under any interleaving the program returns what it returns when every lookup misses. -/
def Transparent {α : Type} (p : Req α) : Prop :=
  ∀ tid w, p.Ensures (n.validity self).rely tid (fun _ a => a = p.eval n.missing) w

variable {n self} {α β : Type}

theorem transparent_pure (a : α) : n.Transparent self (pure a : Req α) := fun _ _ _ _ => rfl

/-- A sequence of transparent programs is transparent. -/
theorem transparent_bind {p : Req α} {f : α → Req β} (hp : n.Transparent self p)
    (hf : ∀ a, n.Transparent self (f a)) : n.Transparent self (p >>= f) := by
  intro tid w
  refine Prog.ensures_bind ((hp tid w).mono fun w' a ha => ?_)
  rw [ha, Prog.eval_bind]
  exact hf _ tid w'

/-- A transparent program with a transparent handler is transparent. -/
theorem transparent_handle {Cmd' : Type} {Resp' : Cmd' → Type}
    {h : (c : Cmd') → Req (Resp' c)} (hh : ∀ c, n.Transparent self (h c))
    (p : Prog Cmd' Resp' α) : n.Transparent self (p.handle h) := by
  induction p with
  | ret a => exact transparent_pure a
  | call c k ih => exact transparent_bind (hh c) ih

/-- A call to HDFS continues with its one answer. -/
theorem transparent_upstream {u : Upstream} {f : u.Reply → Req β}
    (hf : n.Transparent self (f (n.reply u))) : n.Transparent self (callUpstream u >>= f) := by
  intro tid w
  apply Validity.ensures_upstream
  intro w' r w'' v _ hexec _
  obtain rfl : r = n.reply u := hexec.1
  exact hf tid v

/-- Inserting a genuine value is transparent. -/
theorem transparent_insert {name : CacheName} {path : Str} {value : name.Value} {weight : ℕ}
    (h : n.Genuine self.mapper name path value) :
    n.Transparent self (cacheInsert name path value weight) := fun tid w =>
  have hinsert : (cacheInsert name path value weight).Ensures (n.validity self).rely tid _ w :=
    Validity.ensures_insert h
  hinsert.mono fun _ _ _ => rfl

/-- A removal is transparent. -/
theorem transparent_remove {name : CacheName} {path : Str} :
    n.Transparent self (cacheRemove name path) := fun tid w =>
  (HdfsGateway.keeps_cacheRemove Validity.reads_keep name path tid w).mono fun _ _ _ => rfl

/-- A lookup is transparent if the program after a genuine hit returns what it returns after a
miss. -/
theorem transparent_lookup {name : CacheName} {path : Str} {f : Option name.Value → Req β}
    (hmiss : n.Transparent self (f none))
    (hhit : ∀ value, n.Genuine self.mapper name path value →
      n.Transparent self (f (some value)) ∧ (f (some value)).eval n.missing =
        (f none).eval n.missing) :
    n.Transparent self (cacheGet name path >>= f) := by
  intro tid w
  apply Validity.ensures_lookup
  · exact fun v _ => hmiss tid v
  · intro value v _ hvalue
    obtain ⟨htrans, heq⟩ := hhit value hvalue
    apply (htrans tid v).mono
    intro w' a ha
    exact ha.trans heq

end StaticHdfs

namespace HdfsGateway

open StaticHdfs

variable (self : HdfsGateway) (n : StaticHdfs)

/-- What a stat returns over the fixed namespace. -/
theorem eval_statFile (path : Str) : (self.statFile path).eval n.missing =
    match n.stat path with
    | .ok status => .ok ⟨status.length, status.isdir, status.modificationTime⟩
    | .error (.fileNotFound _) => .error { code := .noSuchKey }
    | .error err => .error (self.mapError err) := by
  have hreply : (callUpstream (.getFileInfo path)).eval n.missing = n.stat path := rfl
  unfold statFile
  rw [Prog.eval_bind, hreply]
  cases n.stat path with
  | ok status => rfl
  | error err => cases err <;> rfl

/-- A stat is transparent: it remembers what it was told. -/
theorem transparent_statFile (path : Str) : n.Transparent self (self.statFile path) := by
  apply transparent_upstream
  have hreply : n.reply (.getFileInfo path) = n.stat path := rfl
  cases hstat : n.stat path with
  | ok status =>
    rw [hreply, hstat]
    exact transparent_bind (transparent_insert ⟨status, hstat, rfl⟩) fun _ => transparent_pure _
  | error err =>
    rw [hreply, hstat]
    cases err with
    | fileNotFound missing =>
      exact transparent_bind (transparent_insert ⟨missing, hstat⟩) fun _ => transparent_pure _
    | _ => exact transparent_pure _

/-- The metadata of a path is the same from either cache and from HDFS. -/
theorem transparent_fileMeta (path : Str) : n.Transparent self (self.fileMeta path) := by
  have hstat := self.eval_statFile n path
  apply transparent_lookup
  · apply transparent_lookup (self.transparent_statFile n path)
    intro _ hmissing
    obtain ⟨missing, h⟩ := hmissing
    refine ⟨transparent_pure _, ?_⟩
    rw [h] at hstat
    exact hstat.symm
  · intro value hvalue
    obtain ⟨status, h, rfl⟩ := hvalue
    refine ⟨transparent_pure _, ?_⟩
    rw [h] at hstat
    exact hstat.symm

/-- What opening a path returns over the fixed namespace. -/
theorem eval_readFile (path : Str) (label : FileMeta) :
    (self.readFile path label).eval n.missing =
      match n.openFile path with
      | .ok reader => .ok reader
      | .error err => .error (self.mapError err) := by
  have hreply : (callUpstream (.read path label)).eval n.missing = n.openFile path := rfl
  unfold readFile
  rw [Prog.eval_bind, hreply]
  cases n.openFile path <;> rfl

/-- Opening a path is transparent: it remembers the reader it was given. -/
theorem transparent_readFile (path : Str) (label : FileMeta) :
    n.Transparent self (self.readFile path label) := by
  apply transparent_upstream
  have hreply : n.reply (.read path label) = n.openFile path := rfl
  cases hopen : n.openFile path with
  | ok reader =>
    rw [hreply, hopen]
    exact transparent_bind (transparent_insert hopen) fun _ => transparent_pure _
  | error err =>
    rw [hreply, hopen]
    exact transparent_bind transparent_remove fun _ => transparent_pure _

/-- A reader is the same from the cache and from HDFS, whatever identity it was cached for. -/
theorem transparent_openReader (path : Str) (label : FileMeta) :
    n.Transparent self (self.openReader path label) := by
  have hread := self.eval_readFile n path label
  apply transparent_lookup (self.transparent_readFile n path label)
  intro cached hcached
  rw [show n.openFile path = .ok cached.reader from hcached] at hread
  by_cases hid : cached.length = label.length ∧ cached.modificationTime = label.modificationTime
  · simp only [hid, and_self, if_true]
    exact ⟨transparent_pure _, hread.symm⟩
  · simp only [hid, if_false]
    exact ⟨transparent_bind transparent_remove fun _ => self.transparent_readFile n path label, rfl⟩

/-- So is one that is long enough. -/
theorem transparent_openObject (path : Str) (label : FileMeta) (prepared : Prepared) :
    n.Transparent self (self.openObject path label prepared) := by
  apply transparent_bind (self.transparent_openReader n path label)
  intro reader
  split
  · exact transparent_pure _
  · split
    · exact transparent_bind transparent_remove fun _ =>
        transparent_bind transparent_remove fun _ => transparent_pure _
    · exact transparent_pure _

/-- A HEAD is transparent. -/
theorem transparent_headObject (input : HeadObjectInput) :
    n.Transparent self (self.headObject input) := by
  unfold headObject
  split
  · exact transparent_pure _
  · apply transparent_bind (self.transparent_fileMeta n _)
    intro status
    split <;> exact transparent_pure _

/-- A GET is transparent, up to its headers. -/
theorem transparent_getObject (input : GetObjectInput) :
    n.Transparent self (self.getObject input) := by
  unfold getObject
  split
  · exact transparent_pure _
  · apply transparent_bind (self.transparent_fileMeta n _)
    intro status
    split
    · exact transparent_pure _
    · split
      · exact transparent_pure _
      · exact self.transparent_openObject n _ _ _

/-- A poll of a body is transparent: an error only drops entries. -/
theorem transparent_pollBody (path : Str) (object : GetObject) (position : ℕ) :
    n.Transparent self (pollBody path object position) := by
  apply transparent_upstream
  split
  · exact transparent_bind transparent_remove fun _ =>
      transparent_bind transparent_remove fun _ => transparent_pure _
  · exact transparent_pure _

/-- A body is transparent. -/
theorem transparent_drain (path : Str) (object : GetObject) (polls : ℕ) (s : BytesStream) :
    n.Transparent self (BytesStream.drain (pollBody path object) polls s) := by
  induction polls generalizing s with
  | zero => exact transparent_pure _
  | succ polls ih =>
    unfold BytesStream.drain
    apply transparent_bind
    · unfold BytesStream.next
      split
      · exact transparent_pure _
      · exact transparent_bind (self.transparent_pollBody n path object _) fun _ =>
          transparent_pure _
    · intro item
      split
      · exact transparent_pure _
      · exact transparent_bind (ih _) fun _ => transparent_pure _

/-- A GET with its body is transparent. -/
theorem transparent_serveGet (input : GetObjectInput) (polls : ℕ) :
    n.Transparent self (self.serveGet input polls) := by
  apply transparent_bind (self.transparent_getObject n input)
  intro result
  split
  · exact transparent_pure _
  · exact transparent_bind (self.transparent_drain n _ _ polls _) fun _ => transparent_pure _

/-- What listing a directory returns over the fixed namespace. -/
theorem eval_fetchDir (dir : Str) : (self.fetchDir dir).eval n.missing =
    (n.list dir).map fun statuses => listingFromStatuses statuses self.mapper := by
  have hreply : (callUpstream (.listStatus dir)).eval n.missing = n.list dir := rfl
  unfold fetchDir
  rw [Prog.eval_bind, hreply]
  cases n.list dir with
  | error err => rfl
  | ok statuses =>
    simp only []
    split <;> rfl

/-- Listing a directory is transparent: it remembers what it was told. -/
theorem transparent_fetchDir (dir : Str) : n.Transparent self (self.fetchDir dir) := by
  apply transparent_upstream
  have hreply : n.reply (.listStatus dir) = n.list dir := rfl
  cases hlist : n.list dir with
  | error err =>
    rw [hreply, hlist]
    exact transparent_pure _
  | ok statuses =>
    rw [hreply, hlist]
    simp only []
    split
    · exact transparent_bind (transparent_insert ⟨statuses, hlist, rfl⟩) fun _ =>
        transparent_pure _
    · exact transparent_pure _

/-- The listing of a directory is the same from the cache and from HDFS. -/
theorem transparent_listDir (dir : Str) : n.Transparent self (self.listDir dir) := by
  have hfetch := self.eval_fetchDir n dir
  apply transparent_lookup (self.transparent_fetchDir n dir)
  intro listing hlisting
  obtain ⟨statuses, hlist, rfl⟩ := hlisting
  refine ⟨transparent_pure _, ?_⟩
  rw [hlist] at hfetch
  exact hfetch.symm

/-- Every page is transparent, since the engines only list directories. -/
theorem transparent_listPage (fuel : ℕ) (args : ListArgs) :
    n.Transparent self (self.listPage fuel args) := by
  have hflat : ∀ limit, n.Transparent self (self.collectFlat fuel args limit) := by
    intro limit
    unfold collectFlat
    split
    · exact transparent_pure _
    · apply transparent_bind (transparent_handle (self.transparent_listDir n) _)
      intro result
      split <;> exact transparent_pure _
  unfold listPage
  split_ifs
  · apply transparent_bind
    · unfold listStartDir
      split
      · exact transparent_pure _
      · exact self.transparent_listDir n _
    · intro result
      split <;> exact transparent_pure _
  · apply transparent_bind
    · unfold collectAll
      split
      · exact transparent_pure _
      · exact hflat none
    · exact fun _ => transparent_pure _
  · exact transparent_bind (hflat _) fun _ => transparent_pure _

/-- A listing is transparent. -/
theorem transparent_listObjectsV2 (fuel : ℕ) (input : ListObjectsV2Input) :
    n.Transparent self (self.listObjectsV2 fuel input) := by
  unfold listObjectsV2
  split
  · exact transparent_pure _
  · exact transparent_bind (self.transparent_listPage n fuel _) fun _ => transparent_pure _

/-- Every request is transparent. -/
theorem transparent_serve (req : S3Request) : n.Transparent self (self.serve req) := by
  cases req with
  | headObject input =>
    exact transparent_bind (self.transparent_headObject n input) fun _ => transparent_pure _
  | getObject input polls =>
    exact transparent_bind (self.transparent_serveGet n input polls) fun _ => transparent_pure _
  | listObjectsV2 input fuel =>
    exact transparent_bind (self.transparent_listObjectsV2 n fuel input) fun _ =>
      transparent_pure _

/-- The same gateway with caching disabled. -/
def withoutCache : HdfsGateway :=
  { self with config := { self.config with cache := { self.config.cache with enabled := false } } }

/-- The response of a request when every lookup misses. -/
def uncached (req : S3Request) : Response := (self.serve req).eval n.missing

variable {self n}

/-- The response of a request, whatever runs beside it, is the one of the request when every lookup
misses. -/
theorem finished_eq_uncached {now : ℕ} {s : Pool Cmd Cmd.Resp _ S3Request Response}
    (hs : self.Reachable n.hdfs now () s) {tid : ℕ} {req : S3Request} {res : Response}
    (hfin : s.Finished tid req res) : res = self.uncached n req := by
  apply hs.post (n.validity self).rely (fun _ req _ res => res = self.uncached n req) _ _ hfin
  · exact Validity.inv_init _ self.config.cache now ()
  · exact fun tid req w _ => self.transparent_serve n req tid w

/-- Caching disabled, every cache of a new gateway has the TTL zero. -/
theorem hasTtl_withoutCache (now : ℕ) :
    (World.init self.crates self.withoutCache.config.cache now ()).caches.HasTtl fun _ => 0 :=
  fun _ => rfl

/-- With caching disabled a request served alone returns what it returns when every lookup
misses. -/
theorem exists_finished_withoutCache (now : ℕ) (req : S3Request) :
    ∃ s, self.withoutCache.Reachable n.hdfs now () s ∧ s.Finished 0 req (self.uncached n req) := by
  have hstart : self.withoutCache.Reachable n.hdfs now () _ := .step .init (.start _ [] req)
  have htask : [(⟨req, self.serve req⟩ : Task Cmd Cmd.Resp S3Request Response)][0]? =
      some ⟨req, self.serve req⟩ := rfl
  have hreply : ∀ d u, n.hdfs.answer d u ((fun _ => n.reply) d u) := fun _ _ => rfl
  have hrun := hstart.runToEnd (World.exec_step hreply) (self.serve req) htask
  refine ⟨_, hrun, congrArg (fun res => some (Task.mk req (Prog.ret res))) ?_⟩
  apply Prog.runOn_eq_eval n.missing fun w => w.caches.HasTtl fun _ => 0
  · intro w c hw
    refine ⟨?_, World.hasTtl_cachesAfter hw⟩
    cases c with
    | cacheGet name path => exact Caches.get_of_disabled hw
    | cacheInsert | cacheRemove | upstream => rfl
  · exact hasTtl_withoutCache now

/-- The caches are transparent: over a fixed namespace, a request that has been answered, beside
any other requests and after any delays, got the answer that the gateway without caches gives. -/
theorem caches_transparent {now : ℕ} {s : Pool Cmd Cmd.Resp _ S3Request Response}
    (hs : self.Reachable n.hdfs now () s) {tid : ℕ} {req : S3Request} {res : Response}
    (hfin : s.Finished tid req res) :
    (∃ s', self.withoutCache.Reachable n.hdfs now () s' ∧ s'.Finished 0 req res) ∧
      ∀ now' s' tid' res', self.withoutCache.Reachable n.hdfs now' () s' →
        s'.Finished tid' req res' → res' = res := by
  rw [finished_eq_uncached hs hfin]
  exact ⟨exists_finished_withoutCache now req, fun now' s' tid' res' hs' hfin' =>
    finished_eq_uncached hs' hfin'⟩

/-- A second HEAD of `/f` is answered from the metadata cache, as the gateway without caches
answers it. -/
theorem caches_transparent_second_head :
    let n : StaticHdfs := ⟨fun path => .ok ⟨path, 3, false, 5⟩, fun path => .ok ⟨path, 3, 0⟩,
      fun _ => .ok [], fun _ _ _ _ => none⟩
    let req : S3Request := .headObject { bucket := [0x62], key := [0x66] }
    ∃ s, reference.withoutCache.Reachable n.hdfs 0 () s ∧
      s.Finished 0 req (.headObject (.ok ⟨"bytes", 3, "application/octet-stream", ⟨0, 5000000⟩,
        .strong "hdfs-3-5"⟩)) := by
  intro n req
  have hinit : reference.Reachable n.hdfs 0 () _ := .init
  have hreply : ∀ d u, n.hdfs.answer d u ((fun _ => n.reply) d u) := fun _ _ => rfl
  have hrun := (((hinit.start req).moves _ hreply 0 4).start req).moves _ hreply 1 4
  exact (caches_transparent hrun (@Pool.finished_of_result _ _ _ _ _ _ 1 _ _ (by decide +kernel))).1

end HdfsGateway

end HdfsS3Gateway
