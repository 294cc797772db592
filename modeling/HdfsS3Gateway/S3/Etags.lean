import HdfsS3Gateway.S3.Tiling
import HdfsS3Gateway.S3.Validators

/-!
# Entity tags identify length and modification time

Listings, HEAD and GET each format the tag of an object from its length and modification time, and
no path compares the tags of two others. They agree because the format is injective: the digits of
the length end at the second dash. So a tag from any of them serves in an If-Match condition, and
the block cache, which compares lengths and times, compares tags in effect.
-/

namespace HdfsS3Gateway

open Interaction

/-- Tags are equal exactly if lengths and modification times are. -/
theorem fallbackEtag_eq_iff {length length' modificationTime modificationTime' : UInt64} :
    fallbackEtag length modificationTime = fallbackEtag length' modificationTime' ↔
      length = length' ∧ modificationTime = modificationTime' := by
  constructor
  · exact fallbackEtag_inj
  · rintro ⟨rfl, rfl⟩
    rfl

/-- The seconds and nanoseconds of a date read back its milliseconds. -/
theorem millisToTimestamp_injective : Function.Injective millisToTimestamp := by
  intro a b h
  have hsecs := congrArg Timestamp.secs h
  have hnanos := congrArg Timestamp.nanos h
  simp only [millisToTimestamp] at hsecs hnanos
  exact UInt64.toNat_inj.mp (by omega)

/-- The size of a listed object reads back its length, although it is signed. -/
theorem toInt64_injective : Function.Injective UInt64.toInt64 := fun a b h => by
  rw [← UInt64.toUInt64_toInt64 a, h, UInt64.toUInt64_toInt64]

/-- A request without its If-Match condition. -/
def S3Request.dropIfMatch : S3Request → S3Request
  | headObject input =>
    headObject { input with conditions := { input.conditions with ifMatch := none } }
  | getObject input polls =>
    getObject { input with conditions := { input.conditions with ifMatch := none } } polls
  | listObjectsV2 input fuel => listObjectsV2 input fuel

namespace HdfsGateway

variable (self : HdfsGateway)

/-- A response shows `etag` for an object of this length and modification time. A listing shows it
beside the two; a HEAD or a GET has read the two as the metadata of the path. The caches and HDFS may
answer anything. -/
inductive Shows (length modificationTime : UInt64) (etag : ETag) : Prop
  | listed {input : ListObjectsV2Input} {fuel : ℕ} {out : ListObjectsV2Output} {object : Object}
    (hout : (self.serve (.listObjectsV2 input fuel)).Yields (.listObjectsV2 (.ok out)))
    (hobject : object ∈ out.contents.getD [])
    (hsize : object.size = length.toInt64)
    (htime : object.lastModified = millisToTimestamp modificationTime)
    (hetag : object.eTag = etag)
  | asked {oracle : (c : Cmd) → c.Resp} {path key : Str} {c : Conditions} {req : S3Request}
    {status : FileMeta} {lastModified : Timestamp}
    (hkey : self.mapper.keyToHdfsPath key = some path)
    (hstatus : (self.fileMeta path).eval oracle = .ok status)
    (hreq : Asks self.mapper.bucket key c req)
    (hval : ((self.serve req).eval oracle).validators = some (etag, lastModified))
    (hlength : status.length = length)
    (htime : status.modificationTime = modificationTime)

variable {self} {oracle : (c : Cmd) → c.Resp} {path key : Str} {c : Conditions} {req : S3Request}
  {status : FileMeta} {length modificationTime : UInt64} {etag : ETag}

/-- Every object of a response is an entry of its page. -/
theorem exists_entry_of_listed {input : ListObjectsV2Input} {fuel : ℕ} {out : ListObjectsV2Output}
    {object : Object}
    (hout : (self.serve (.listObjectsV2 input fuel)).Yields (.listObjectsV2 (.ok out)))
    (hobject : object ∈ out.contents.getD []) : ∃ e, object = listedObject e := by
  obtain ⟨res, hres, hout⟩ := (Prog.yields_bind _ _ _).mp hout
  obtain rfl : res = .ok out := Response.listObjectsV2.inj hout
  unfold listObjectsV2 at hres
  cases hargs : self.listArgs input with
  | error err =>
    rw [hargs] at hres
    contradiction
  | ok args =>
    rw [hargs] at hres
    obtain ⟨page, -, hpage⟩ := (Prog.yields_bind _ _ _).mp hres
    cases page with
    | error err => contradiction
    | ok page =>
      obtain rfl := Except.ok.inj hpage
      rw [contents_listOutput] at hobject
      obtain ⟨e, -, rfl⟩ := List.mem_map.mp hobject
      exact ⟨e, rfl⟩

/-- A HEAD or a GET carries the validators of the metadata that it read. -/
theorem validators_of_asks (hkey : self.mapper.keyToHdfsPath key = some path)
    (hstatus : (self.fileMeta path).eval oracle = .ok status)
    (hreq : Asks self.mapper.bucket key c req) {v : ETag × Timestamp}
    (hval : ((self.serve req).eval oracle).validators = some v) : v = validatorsOf status := by
  cases hdir : status.isdir with
  | false =>
    obtain ⟨-, -, hcarried⟩ := self.decides hdir hkey hstatus hreq
    exact hcarried v hval
  | true =>
    have hpath := self.resolvePath_of_key hkey
    cases hreq with
    | head =>
      rw [self.eval_serve_headObject _ hpath hstatus, headResponse, if_pos hdir] at hval
      contradiction
    | get range polls =>
      rw [serve, Prog.eval_map, serveGet, Prog.eval_bind,
        self.eval_getObject_of_file _ hpath hstatus, prepare, if_pos hdir] at hval
      contradiction

/-- Whatever path shows a tag, it is the one of the length and the modification time. -/
theorem Shows.eq (h : self.Shows length modificationTime etag) :
    etag = .strong (fallbackEtag length modificationTime) := by
  cases h with
  | listed hout hobject hsize htime hetag =>
    obtain ⟨e, rfl⟩ := exists_entry_of_listed hout hobject
    obtain rfl : e.size = length := toInt64_injective hsize
    obtain rfl : e.modificationTime = modificationTime := millisToTimestamp_injective htime
    exact hetag.symm
  | asked hkey hstatus hreq hval hlength htime =>
    rw [← hlength, ← htime]
    exact congrArg Prod.fst (validators_of_asks hkey hstatus hreq hval)

/-- Tags from any two responses agree exactly if the lengths and the modification times do. -/
theorem Shows.eq_iff {length' modificationTime' : UInt64} {etag' : ETag}
    (h : self.Shows length modificationTime etag)
    (h' : self.Shows length' modificationTime' etag') :
    etag = etag' ↔ length = length' ∧ modificationTime = modificationTime' := by
  rw [h.eq, h'.eq, ETag.strong.injEq, fallbackEtag_eq_iff]

/-- A shown tag matches the tag of a file exactly if neither has changed. -/
theorem Shows.strongMatch_iff (h : self.Shows length modificationTime etag) :
    self.strongMatch (validatorsOf status).1 (.etag etag) = true ↔
      status.length = length ∧ status.modificationTime = modificationTime := by
  rw [h.eq, ← fallbackEtag_eq_iff]
  simp only [strongMatch, self.crates.strongCmp_iff, validatorsOf, ETag.strong.injEq]
  constructor
  · rintro ⟨value, rfl, h⟩
    exact h.symm
  · intro h
    exact ⟨_, rfl, h.symm⟩

/-- A condition that matches is as good as none. -/
theorem checkConditions_dropIfMatch {cond : ETagCondition} {lastModified : Timestamp}
    (hmatch : c.ifMatch = some cond) (h : self.strongMatch etag cond = true) :
    self.checkConditions c etag lastModified =
      self.checkConditions { c with ifMatch := none } etag lastModified := by
  rw [checkConditions_eq, checkConditions_eq, hmatch]
  simp only [Option.any_some, Option.any_none, h, Bool.not_true]

/-- A condition that does not match is a failed precondition, whatever the others. -/
theorem checkConditions_of_not_match {cond : ETagCondition} {lastModified : Timestamp}
    (hmatch : c.ifMatch = some cond) (h : self.strongMatch etag cond = false) :
    self.checkConditions c etag lastModified = .error { code := .preconditionFailed } := by
  rw [checkConditions_eq, hmatch]
  simp [h]

/-- Without a date to check, a condition that matches is no failed precondition. -/
theorem checkConditions_ne_of_match {cond : ETagCondition} {lastModified : Timestamp}
    (hmatch : c.ifMatch = some cond) (hsince : c.ifUnmodifiedSince = none)
    (h : self.strongMatch etag cond = true) {err : S3Error}
    (herr : self.checkConditions c etag lastModified = .error err) :
    err.code ≠ .preconditionFailed := by
  rw [checkConditions_eq, hmatch, hsince] at herr
  simp only [Option.any_some, Option.any_none, h, Bool.not_true, Bool.false_eq_true, or_self,
    if_false] at herr
  split at herr
  · obtain rfl := Except.error.inj herr
    simp
  · contradiction

/-- A HEAD depends on its conditions only through their check. -/
theorem headResponse_congr (input : HeadObjectInput) {c' : Conditions}
    (hcheck : self.checkConditions input.conditions (validatorsOf status).1 (validatorsOf status).2 =
      self.checkConditions c' (validatorsOf status).1 (validatorsOf status).2) :
    self.headResponse input path status =
      self.headResponse { input with conditions := c' } path status := by
  unfold headResponse
  exact if_congr Iff.rfl rfl (congrArg (· >>= _) hcheck)

/-- So does a GET. -/
theorem prepare_congr (input : GetObjectInput) {c' : Conditions}
    (hcheck : self.checkConditions input.conditions (validatorsOf status).1 (validatorsOf status).2 =
      self.checkConditions c' (validatorsOf status).1 (validatorsOf status).2) :
    self.prepare input path status = self.prepare { input with conditions := c' } path status := by
  unfold prepare
  exact if_congr Iff.rfl rfl (congrArg (· >>= _) hcheck)

/-- While nothing has changed, an If-Match with a shown tag makes no difference to the response. -/
theorem Shows.eval_dropIfMatch (h : self.Shows length modificationTime etag)
    (hkey : self.mapper.keyToHdfsPath key = some path)
    (hstatus : (self.fileMeta path).eval oracle = .ok status)
    (hreq : Asks self.mapper.bucket key c req) (hmatch : c.ifMatch = some (.etag etag))
    (hsame : status.length = length ∧ status.modificationTime = modificationTime) :
    (self.serve req).eval oracle = (self.serve req.dropIfMatch).eval oracle := by
  have hpath := self.resolvePath_of_key hkey
  have hcheck : self.checkConditions c (validatorsOf status).1 (validatorsOf status).2 = _ :=
    checkConditions_dropIfMatch hmatch (h.strongMatch_iff.mpr hsame)
  cases hreq with
  | head =>
    rw [S3Request.dropIfMatch, self.eval_serve_headObject _ hpath hstatus,
      self.eval_serve_headObject _ hpath hstatus]
    exact congrArg Response.headObject
      (headResponse_congr { bucket := self.mapper.bucket, key, conditions := c } hcheck)
  | get range polls =>
    simp only [S3Request.dropIfMatch, serve, Prog.eval_map, serveGet, Prog.eval_bind]
    rw [self.eval_getObject_of_file _ hpath hstatus, self.eval_getObject_of_file _ hpath hstatus]
    rw [prepare_congr { bucket := self.mapper.bucket, key, conditions := c, range } hcheck]

/-- Once something has changed, an If-Match with a shown tag fails. -/
theorem Shows.preconditionFailed (h : self.Shows length modificationTime etag)
    (hfile : status.isdir = false) (hkey : self.mapper.keyToHdfsPath key = some path)
    (hstatus : (self.fileMeta path).eval oracle = .ok status)
    (hreq : Asks self.mapper.bucket key c req) (hmatch : c.ifMatch = some (.etag etag))
    (hchanged : ¬ (status.length = length ∧ status.modificationTime = modificationTime)) :
    ((self.serve req).eval oracle).errorCode = some .preconditionFailed := by
  obtain ⟨hrefused, -, -⟩ := self.decides hfile hkey hstatus hreq
  have hno := Bool.eq_false_iff.mpr (mt h.strongMatch_iff.mp hchanged)
  exact hrefused _ (checkConditions_of_not_match hmatch hno)

/-- An If-Match with a shown tag succeeds exactly if neither has changed. -/
theorem Shows.ifMatch_iff (h : self.Shows length modificationTime etag)
    (hfile : status.isdir = false) (hkey : self.mapper.keyToHdfsPath key = some path)
    (hstatus : (self.fileMeta path).eval oracle = .ok status)
    (hreq : Asks self.mapper.bucket key c req) (hmatch : c.ifMatch = some (.etag etag))
    (hsince : c.ifUnmodifiedSince = none) :
    ((self.serve req).eval oracle).errorCode ≠ some .preconditionFailed ↔
      status.length = length ∧ status.modificationTime = modificationTime := by
  constructor
  · intro hcode
    by_contra hchanged
    exact hcode (h.preconditionFailed hfile hkey hstatus hreq hmatch hchanged)
  · intro hsame hcode
    obtain ⟨hrefused, hanswered, -⟩ := self.decides hfile hkey hstatus hreq
    have hyes := h.strongMatch_iff.mpr hsame
    cases hcond : self.checkConditions c (validatorsOf status).1 (validatorsOf status).2 with
    | ok => exact hanswered hcond _ hcode (Or.inl rfl)
    | error err =>
      have herr := (hrefused err hcond).symm.trans hcode
      exact checkConditions_ne_of_match hmatch hsince hyes hcond (Option.some.inj herr)

/-- `open_reader` on a hit, as a comparison of tags: the cached reader, or a new one in its place. -/
theorem openReader_of_hit (self : HdfsGateway) (status : FileMeta) {cached : CachedReader}
    (hhit : oracle (.cacheGet .blocks path) = (some cached : Option CachedReader)) :
    (fallbackEtag cached.length cached.modificationTime =
        fallbackEtag status.length status.modificationTime →
      (self.openReader path status).trace oracle = [.cacheGet .blocks path] ∧
        (self.openReader path status).eval oracle = .ok cached.reader) ∧
    (fallbackEtag cached.length cached.modificationTime ≠
        fallbackEtag status.length status.modificationTime →
      [.cacheGet .blocks path, .cacheRemove .blocks path, .upstream (.read path status)] <+:
        (self.openReader path status).trace oracle) := by
  have hget : (cacheGet .blocks path).eval oracle = (some cached : Option CachedReader) := hhit
  simp only [ne_eq, fallbackEtag_eq_iff, openReader, Prog.trace_bind, Prog.eval_bind, hget]
  constructor
  · intro hsame
    rw [if_pos hsame]
    exact ⟨rfl, rfl⟩
  · intro hchanged
    rw [if_neg hchanged]
    exact ⟨_, rfl⟩

/-- So a hit is reused exactly if the tags agree. -/
theorem openReader_reuse_iff {cached : CachedReader}
    (hhit : oracle (.cacheGet .blocks path) = (some cached : Option CachedReader)) :
    (self.openReader path status).trace oracle = [.cacheGet .blocks path] ↔
      fallbackEtag cached.length cached.modificationTime =
        fallbackEtag status.length status.modificationTime := by
  obtain ⟨hreuse, hdrop⟩ := openReader_of_hit self status hhit
  constructor
  · intro htrace
    by_contra hne
    have hlength := (hdrop hne).length_le
    rw [htrace] at hlength
    simp at hlength
  · intro hsame
    exact (hreuse hsame).1

end HdfsGateway

/-- The fallback tag identifies length and modification time. So the tags that listings, HEAD and GET
show agree exactly if lengths and times do; an If-Match with a shown tag makes no difference while
neither has changed and fails once one has; and `open_reader` reuses a cached reader exactly if its
tag is that of the metadata. -/
theorem etags_identify (self : HdfsGateway) :
    (∀ length length' modificationTime modificationTime' : UInt64,
      fallbackEtag length modificationTime = fallbackEtag length' modificationTime' ↔
        length = length' ∧ modificationTime = modificationTime') ∧
    (∀ (length length' modificationTime modificationTime' : UInt64) (etag etag' : ETag),
      self.Shows length modificationTime etag → self.Shows length' modificationTime' etag' →
      (etag = etag' ↔ length = length' ∧ modificationTime = modificationTime')) ∧
    (∀ (length modificationTime : UInt64) (etag : ETag) (oracle : (c : Cmd) → c.Resp)
      (path key : Str) (c : Conditions) (req : S3Request) (status : FileMeta),
      self.Shows length modificationTime etag → status.isdir = false →
      self.mapper.keyToHdfsPath key = some path → (self.fileMeta path).eval oracle = .ok status →
      Asks self.mapper.bucket key c req → c.ifMatch = some (.etag etag) →
      (status.length = length ∧ status.modificationTime = modificationTime →
        (self.serve req).eval oracle = (self.serve req.dropIfMatch).eval oracle) ∧
      (¬ (status.length = length ∧ status.modificationTime = modificationTime) →
        ((self.serve req).eval oracle).errorCode = some .preconditionFailed) ∧
      (c.ifUnmodifiedSince = none →
        (((self.serve req).eval oracle).errorCode ≠ some .preconditionFailed ↔
          status.length = length ∧ status.modificationTime = modificationTime))) ∧
    (∀ (oracle : (c : Cmd) → c.Resp) (path : Str) (status : FileMeta) (cached : CachedReader),
      oracle (.cacheGet .blocks path) = (some cached : Option CachedReader) →
      ((self.openReader path status).trace oracle = [.cacheGet .blocks path] ↔
        fallbackEtag cached.length cached.modificationTime =
          fallbackEtag status.length status.modificationTime) ∧
      (fallbackEtag cached.length cached.modificationTime =
          fallbackEtag status.length status.modificationTime →
        (self.openReader path status).eval oracle = .ok cached.reader) ∧
      (fallbackEtag cached.length cached.modificationTime ≠
          fallbackEtag status.length status.modificationTime →
        [.cacheGet .blocks path, .cacheRemove .blocks path, .upstream (.read path status)] <+:
          (self.openReader path status).trace oracle)) := by
  refine ⟨fun _ _ _ _ => fallbackEtag_eq_iff, fun _ _ _ _ _ _ h h' => h.eq_iff h', ?_, ?_⟩
  · intro length modificationTime etag oracle path key c req status h hfile hkey hstatus hreq hmatch
    exact ⟨h.eval_dropIfMatch hkey hstatus hreq hmatch,
      h.preconditionFailed hfile hkey hstatus hreq hmatch,
      h.ifMatch_iff hfile hkey hstatus hreq hmatch⟩
  · intro oracle path status cached hhit
    obtain ⟨hreuse, hdrop⟩ := self.openReader_of_hit status hhit
    exact ⟨HdfsGateway.openReader_reuse_iff hhit, fun hsame => (hreuse hsame).2, hdrop⟩

/-- For example the tag that a listing shows for a file: a changed file has another one, an If-Match
with it fails once the file was modified a millisecond later, and a reader cached for it is reused. -/
theorem etags_identify_listed : ∃ (etag : ETag) (oracle : (c : Cmd) → c.Resp) (reader : FileReader),
    HdfsGateway.reference.Shows 3 5000 etag ∧
    (∀ etag', HdfsGateway.reference.Shows 3 5001 etag' → etag ≠ etag') ∧
    ((HdfsGateway.reference.serve (.headObject
      { bucket := [0x62], key := [0x66], conditions := { ifMatch := some (.etag etag) } })).eval
        (HdfsGateway.metadataCached ⟨3, false, 5001⟩)).errorCode = some .preconditionFailed ∧
    (HdfsGateway.reference.openReader [0x2F, 0x66] ⟨3, false, 5000⟩).eval oracle = .ok reader := by
  let listing : DirListing := ⟨[⟨[0x66], 3, 5000⟩], [], by simp, by simp⟩
  let reader : FileReader := ⟨[0x2F, 0x66], 3, 0⟩
  let oracle : (c : Cmd) → c.Resp
    | .cacheGet .dirs _ => some listing
    | .cacheGet .blocks _ => some ⟨reader, 3, 5000⟩
    | c => HdfsGateway.metadataCached ⟨3, false, 5000⟩ c
  let input : ListObjectsV2Input := { bucket := [0x62], delimiter := some [slash] }
  have hlisted : ∃ out,
      (HdfsGateway.reference.serve (.listObjectsV2 input 0)).eval oracle = .listObjectsV2 (.ok out) ∧
        listedObject ⟨[0x66], 3, 5000⟩ ∈ out.contents.getD [] := ⟨_, rfl, by decide +kernel⟩
  obtain ⟨out, hout, hobject⟩ := hlisted
  have hyields := Prog.yields_eval oracle (HdfsGateway.reference.serve (.listObjectsV2 input 0))
  rw [hout] at hyields
  have hshows : HdfsGateway.reference.Shows 3 5000 (.strong (fallbackEtag 3 5000)) :=
    .listed hyields hobject rfl rfl rfl
  have hchanged : ¬ ((3 : UInt64) = 3 ∧ (5001 : UInt64) = 5000) := by decide
  obtain ⟨-, hshown, hifMatch, hreuse⟩ := etags_identify .reference
  refine ⟨_, oracle, reader, hshows, fun etag' hshows' h => ?_, ?_, ?_⟩
  · exact absurd ((hshown _ _ _ _ _ _ hshows hshows').mp h) (by decide)
  · exact (hifMatch 3 5000 _ _ [0x2F, 0x66] [0x66] _ _ ⟨3, false, 5001⟩ hshows rfl (by decide +kernel)
      rfl .head rfl).2.1 hchanged
  · exact (hreuse oracle _ ⟨3, false, 5000⟩ ⟨reader, 3, 5000⟩ rfl).2.1 rfl

end HdfsS3Gateway
