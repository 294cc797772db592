import HdfsS3Gateway.S3.GetObject
import HdfsS3Gateway.S3.World

/-!
# Replaying the validators of a response

A response carries an entity tag and a date, and a client sends them back in conditional headers.
HDFS times have milliseconds and the date on the wire has whole seconds, so what comes back is the
time of the file cut down to its second. The tag always answers "unchanged"; the date does so
exactly for the files whose modification time has no milliseconds.
-/

namespace HdfsS3Gateway

open Interaction

/-- The error codes that answer a conditional header. -/
def S3ErrorCode.IsConditional (code : S3ErrorCode) : Prop :=
  code = .preconditionFailed ∨ code = .notModified

/-- A HEAD or a GET of one key, with these conditional headers. -/
inductive Asks (bucket key : Str) (conditions : Conditions) : S3Request → Prop
  | head : Asks bucket key conditions (.headObject { bucket, key, conditions })
  | get (range : Option Range) (polls : ℕ) :
      Asks bucket key conditions (.getObject { bucket, key, conditions, range } polls)

namespace Response

/-- The entity tag and the date of a successful HEAD or GET. -/
def validators : Response → Option (ETag × Timestamp)
  | headObject (.ok out) => some (out.eTag, out.lastModified)
  | getObject (.ok (object, _)) => some (object.output.eTag, object.output.lastModified)
  | _ => none

/-- The error code of a refused HEAD or GET. -/
def errorCode : Response → Option S3ErrorCode
  | headObject (.error err) | getObject (.error err) => some err.code
  | _ => none

end Response

namespace HdfsGateway

variable (self : HdfsGateway)

/-- `etag` satisfies an If-Match condition. -/
def strongMatch (etag : ETag) : ETagCondition → Bool
  | .any => true
  | .etag other => self.crates.strongCmp etag other

/-- `etag` satisfies an If-None-Match condition. -/
def weakMatch (etag : ETag) : ETagCondition → Bool
  | .any => true
  | .etag other => self.crates.weakCmp etag other

/-- The four checks one after the other. -/
theorem checkConditions_eq (c : Conditions) (etag : ETag) (lastModified : Timestamp) :
    self.checkConditions c etag lastModified =
      if c.ifMatch.any (fun cond => !self.strongMatch etag cond) = true ∨
          c.ifUnmodifiedSince.any (fun since => since.before lastModified) = true then
        .error { code := .preconditionFailed }
      else if c.ifNoneMatch.any (self.weakMatch etag) = true ∨
          c.ifModifiedSince.any (fun since => !since.before lastModified) = true then
        .error { code := .notModified }
      else .ok () := by
  obtain ⟨m, u, n, s⟩ := c
  have hcheck : ∀ (b : Bool) (err : S3Error) (k : Except S3Error Unit),
      (if b = true then (throw err : Except S3Error Unit) >>= fun _ => k else k) =
        if b = true then .error err else k := by
    intro b err k
    cases b <;> rfl
  have hlast : ∀ (b : Bool) (err : S3Error),
      (if b = true then (throw err : Except S3Error Unit) else pure ()) =
        if b = true then .error err else .ok () := by
    intro b err
    cases b <;> rfl
  unfold checkConditions strongMatch weakMatch
  simp only [ite_or]
  cases m <;> cases u <;> cases n <;> cases s <;>
    simp only [Option.any_some, Option.any_none, hcheck, hlast, Bool.false_eq_true, if_false] <;> rfl

/-- The entity tag and the date of a file with this metadata. -/
def validatorsOf (status : FileMeta) : ETag × Timestamp :=
  (.strong (fallbackEtag status.length status.modificationTime),
    millisToTimestamp status.modificationTime)

/-- No HDFS error is reported as the answer to a condition. -/
theorem mapError_not_conditional (err : HdfsError) : ¬ (self.mapError err).code.IsConditional := by
  rw [mapError, mapHdfsError_code, S3ErrorCode.IsConditional]
  cases err <;> simp only [hdfsErrorCode, reduceCtorEq, or_self, not_false_eq_true] <;>
    split_ifs <;> simp

variable (path : Str) {status : FileMeta}

/-- A HEAD of a file answers with its validators, unless the conditions refuse it. -/
theorem headResponse_of_file (input : HeadObjectInput) (hfile : status.isdir = false) :
    (∀ err, self.checkConditions input.conditions (validatorsOf status).1 (validatorsOf status).2 =
        .error err → self.headResponse input path status = .error err) ∧
      (self.checkConditions input.conditions (validatorsOf status).1 (validatorsOf status).2 = .ok () →
        ∃ out, self.headResponse input path status = .ok out ∧
          (out.eTag, out.lastModified) = validatorsOf status) := by
  unfold headResponse
  rw [hfile]
  simp only [Bool.false_eq_true, if_false]
  constructor
  · intro err h
    exact congrArg (· >>= _) h
  · intro h
    refine ⟨_, congrArg (· >>= _) h, rfl⟩

/-- A sequence fails if its first part does, or its second part on the result of the first. -/
theorem except_bind_eq_error {ε α β : Type} {x : Except ε α} {f : α → Except ε β} {err : ε} :
    x >>= f = .error err ↔ x = .error err ∨ ∃ a, x = .ok a ∧ f a = .error err := by
  cases x <;> simp [bind, Except.bind]

/-- The only way a window is refused is as an invalid range. -/
theorem resolveWindow_eq_error {fileLen : UInt64} {range : Option Range} {err : S3Error}
    (h : (resolveWindow fileLen range).value = .error err) : err.code = .invalidRange := by
  cases range with
  | none => contradiction
  | some range =>
    unfold resolveWindow at h
    simp only [Overflow.Tracked.value_bind] at h
    split at h
    · obtain rfl := Except.error.inj h
      rfl
    · contradiction

/-- A GET of a file prepares its validators, unless the conditions refuse it. -/
theorem prepare_of_file (input : GetObjectInput) (hfile : status.isdir = false) :
    (∀ err, self.checkConditions input.conditions (validatorsOf status).1 (validatorsOf status).2 =
        .error err → self.prepare input path status = .error err) ∧
      (self.checkConditions input.conditions (validatorsOf status).1 (validatorsOf status).2 = .ok () →
        (∀ err, self.prepare input path status = .error err → err.code = .invalidRange) ∧
        ∀ p, self.prepare input path status = .ok p →
          (p.output.eTag, p.output.lastModified) = validatorsOf status) := by
  unfold prepare
  rw [hfile]
  simp only [Bool.false_eq_true, if_false]
  constructor
  · intro err h
    exact congrArg (· >>= _) h
  · intro h
    constructor
    · intro err herr
      rcases except_bind_eq_error.mp herr with hcond | ⟨-, -, herr⟩
      · exact absurd (hcond.symm.trans h) (by simp)
      rcases except_bind_eq_error.mp herr with hwindow | ⟨w, -, herr⟩
      · exact resolveWindow_eq_error hwindow
      split at herr
      · contradiction
      · obtain rfl := Except.error.inj herr
        rfl
    · intro p hp
      obtain ⟨-, -, hp⟩ := except_bind_eq_ok.mp hp
      obtain ⟨w, -, hp⟩ := except_bind_eq_ok.mp hp
      split at hp
      · obtain rfl := Except.ok.inj hp
        rfl
      · contradiction

variable {path} {oracle : (c : Cmd) → c.Resp}

/-- Opening a reader never fails with the answer to a condition. -/
theorem eval_openObject_not_conditional {p : Prepared} {err : S3Error}
    (h : (self.openObject path status p).eval oracle = .error err) :
    ¬ err.code.IsConditional := by
  have hread : ∀ err, (self.readFile path status).eval oracle = .error err →
      ¬ err.code.IsConditional := by
    intro err h
    unfold readFile at h
    rw [Prog.eval_bind] at h
    split at h
    · contradiction
    · obtain rfl := Except.error.inj h
      exact self.mapError_not_conditional _
  have hopen : ∀ err, (self.openReader path status).eval oracle = .error err →
      ¬ err.code.IsConditional := by
    intro err h
    unfold openReader at h
    rw [Prog.eval_bind] at h
    split at h
    · split at h
      · contradiction
      · exact hread err h
    · exact hread err h
  unfold openObject at h
  rw [Prog.eval_bind] at h
  split at h
  · rename_i err' herr
    obtain rfl := Except.error.inj h
    exact hopen err' herr
  · split at h
    · obtain rfl := Except.error.inj h
      simp [S3ErrorCode.IsConditional]
    · contradiction

/-- What a GET of a file returns, once its metadata is known. -/
theorem eval_getObject_of_file (input : GetObjectInput)
    (hpath : self.resolvePath input.bucket input.key = .ok path)
    (hstatus : (self.fileMeta path).eval oracle = .ok status) :
    (self.getObject input).eval oracle =
      match self.prepare input path status with
      | .error err => .error err
      | .ok p => (self.openObject path status p).eval oracle := by
  unfold getObject
  rw [hpath]
  simp only [Prog.eval_bind, hstatus]
  cases self.prepare input path status <;> rfl

/-- What a HEAD of a file returns, once its metadata is known. -/
theorem eval_serve_headObject (input : HeadObjectInput)
    (hpath : self.resolvePath input.bucket input.key = .ok path)
    (hstatus : (self.fileMeta path).eval oracle = .ok status) :
    (self.serve (.headObject input)).eval oracle =
      .headObject (self.headResponse input path status) := by
  simp only [serve, Prog.eval_map, headObject, hpath, Prog.eval_bind, hstatus]
  rfl

/-- The key of a path in the bucket resolves to the path. -/
theorem resolvePath_of_key {key : Str} (hkey : self.mapper.keyToHdfsPath key = some path) :
    self.resolvePath self.mapper.bucket key = .ok path := by
  rw [resolvePath, if_neg (not_not_intro rfl), hkey]

/-- What the conditions decide about the response for a file: it is refused with the error of the
conditions, without one an error is no answer to a condition, and a successful response carries the
validators of the file. -/
structure Decides (c : Conditions) (status : FileMeta) (res : Response) : Prop where
  refused : ∀ err, self.checkConditions c (validatorsOf status).1 (validatorsOf status).2 = .error err →
    res.errorCode = some err.code
  admitted : self.checkConditions c (validatorsOf status).1 (validatorsOf status).2 = .ok () →
    ∀ code, res.errorCode = some code → ¬ code.IsConditional
  carried : ∀ v, res.validators = some v → v = validatorsOf status

/-- The conditions decide about a HEAD of a file. -/
theorem decides_head (input : HeadObjectInput) (hfile : status.isdir = false)
    (hpath : self.resolvePath input.bucket input.key = .ok path)
    (hstatus : (self.fileMeta path).eval oracle = .ok status) :
    self.Decides input.conditions status ((self.serve (.headObject input)).eval oracle) := by
  obtain ⟨hrefused, hanswered⟩ := self.headResponse_of_file path input hfile
  rw [self.eval_serve_headObject input hpath hstatus]
  cases hcond : self.checkConditions input.conditions (validatorsOf status).1
      (validatorsOf status).2 with
  | error err =>
    rw [hrefused err hcond]
    exact ⟨fun err' h => by rw [← Except.error.inj (hcond.symm.trans h)]; rfl,
      fun h => by rw [hcond] at h; contradiction, nofun⟩
  | ok =>
    obtain ⟨out, hout, hval⟩ := hanswered hcond
    rw [hout]
    exact ⟨fun err' h => by rw [hcond] at h; contradiction, fun _ => nofun,
      fun v hv => (Option.some.inj hv).symm.trans hval⟩

/-- The conditions decide about a GET of a file. -/
theorem decides_get (input : GetObjectInput) (polls : ℕ) (hfile : status.isdir = false)
    (hpath : self.resolvePath input.bucket input.key = .ok path)
    (hstatus : (self.fileMeta path).eval oracle = .ok status) :
    self.Decides input.conditions status ((self.serve (.getObject input polls)).eval oracle) := by
  obtain ⟨hrefused, hanswered⟩ := self.prepare_of_file path input hfile
  rw [serve, Prog.eval_map, serveGet, Prog.eval_bind, self.eval_getObject_of_file input hpath hstatus]
  cases hcond : self.checkConditions input.conditions (validatorsOf status).1
      (validatorsOf status).2 with
  | error err =>
    rw [hrefused err hcond]
    exact ⟨fun err' h => by rw [← Except.error.inj (hcond.symm.trans h)]; rfl,
      fun h => by rw [hcond] at h; contradiction, nofun⟩
  | ok =>
    have hpass : ∀ err, self.checkConditions input.conditions (validatorsOf status).1
        (validatorsOf status).2 ≠ .error err := fun err h => by
      rw [hcond] at h
      contradiction
    obtain ⟨hrange, hprepared⟩ := hanswered hcond
    cases hp : self.prepare input path status with
    | error err =>
      have hcode := hrange err hp
      refine ⟨fun err' h => absurd h (hpass err'), fun _ code h => ?_, nofun⟩
      rw [← Option.some.inj h, hcode]
      simp [S3ErrorCode.IsConditional]
    | ok p =>
      simp only []
      cases hopen : (self.openObject path status p).eval oracle with
      | error err =>
        have hcode := self.eval_openObject_not_conditional hopen
        exact ⟨fun err' h => absurd h (hpass err'), fun _ code h => Option.some.inj h ▸ hcode, nofun⟩
      | ok opened =>
        obtain ⟨path', object⟩ := opened
        have hyields : (self.openObject path status p).Yields (.ok (path', object)) := by
          rw [← hopen]
          exact Prog.yields_eval oracle _
        obtain ⟨-, -, -, hout, -⟩ := self.openObject_yields hyields
        simp only [Prog.eval_bind, Prog.pure_eq_ret, Prog.eval_ret]
        refine ⟨fun err' h => absurd h (hpass err'), fun _ => nofun, fun v hv => ?_⟩
        rw [← hprepared p hp, ← hout]
        exact (Option.some.inj hv).symm

/-- The conditions decide about a HEAD and a GET alike. -/
theorem decides {key : Str} {c : Conditions} {req : S3Request} (hfile : status.isdir = false)
    (hkey : self.mapper.keyToHdfsPath key = some path)
    (hstatus : (self.fileMeta path).eval oracle = .ok status)
    (hreq : Asks self.mapper.bucket key c req) :
    self.Decides c status ((self.serve req).eval oracle) := by
  have hpath := self.resolvePath_of_key hkey
  cases hreq with
  | head =>
    exact self.decides_head { bucket := self.mapper.bucket, key, conditions := c } hfile hpath hstatus
  | get range polls =>
    exact self.decides_get { bucket := self.mapper.bucket, key, conditions := c, range } polls hfile
      hpath hstatus

/-- Replies under which the metadata of every path is cached. -/
def metadataCached (status : FileMeta) : (c : Cmd) → c.Resp
  | .cacheGet .metadata _ => some status
  | .cacheGet .negative _ | .cacheGet .blocks _ | .cacheGet .dirs _ => none
  | .cacheInsert _ _ _ _ | .cacheRemove _ _ => ()
  | .upstream (.getFileInfo _) | .upstream (.read _ _) => .error .noSASLMechanism
  | .upstream (.listStatus _) => .error .noSASLMechanism
  | .upstream (.pollRange _ _ _ _) => none

end HdfsGateway

end HdfsS3Gateway
