import HdfsS3Gateway.S3.World

/-!
# The operations of the service

Every S3 operation is wrapped in a `RequestLog`: it mints a request id from the clock and a counter of
the process, logs that the request started, attaches the id to the response or to the error, and logs
that the request completed when it is dropped, at the end of the handler. The body of a GET streams
after that.

The three read operations run the programs of the gateway inside this wrapper. The other operations
touch neither the caches nor HDFS: bucket lookups and configuration probes are answered from the
configuration, and every write is denied.
-/

namespace HdfsS3Gateway

open Interaction

/-! ## Commands -/

/-- A line of the log of the service, without the latency. -/
inductive LogLine
  | started (requestId op : String)
  | completed (requestId op : String) (hdfsPath : Str) (bytesServed : UInt64) (ok : Bool)
  deriving DecidableEq, Repr

/-- The request that a line is about. -/
def LogLine.requestId : LogLine → String
  | started requestId _ | completed requestId _ _ _ _ => requestId

/-- The commands of an operation: those of the gateway, the clock, the counter and the log. -/
inductive OpCmd
  | gateway (c : Cmd)
  | systemTime
  | fetchAdd
  | info (line : LogLine)
  deriving DecidableEq

/-- What each returns; the time is in nanoseconds after the epoch. -/
def OpCmd.Resp : OpCmd → Type
  | gateway c => c.Resp
  | systemTime => ℕ
  | fetchAdd => UInt64
  | info _ => Unit

/-- An operation in progress. -/
abbrev Op (α : Type) := Prog OpCmd OpCmd.Resp α

/-- A part of an operation that is a program of the gateway. -/
def inner {α : Type} (p : Req α) : Op α := p.handle fun c => Prog.perform (OpCmd.gateway c)

/-- `SystemTime::now()`. -/
def systemTime : Op ℕ := Prog.perform OpCmd.systemTime

/-- `REQUEST_SEQ.fetch_add(1)`. -/
def fetchAdd : Op UInt64 := Prog.perform OpCmd.fetchAdd

/-- `tracing::info!`. -/
def info (line : LogLine) : Op Unit := Prog.perform (OpCmd.info line)

/-! ## Headers -/

/-- The names and values of the headers of a response. -/
abbrev HeaderMap := List (String × String)

/-- `headers.insert(name, value)`. -/
def HeaderMap.insert (headers : HeaderMap) (name value : String) : HeaderMap :=
  headers.filter (fun h => h.1 != name) ++ [(name, value)]

/-- `headers.get(name)`. -/
def HeaderMap.get (headers : HeaderMap) (name : String) : Option String :=
  (headers.find? fun h => h.1 == name).map Prod.snd

/-- `HeaderValue::from_str`: visible ASCII only. -/
def headerValueFromStr (s : String) : Option String :=
  if s.toList.all fun c => c == '\t' || (32 ≤ c.toNat && c.toNat < 127) then some s else none

/-- `X_AMZ_REQUEST_ID`. -/
def xAmzRequestId : String := "x-amz-request-id"

/-- `S3Response`. -/
structure S3Response (α : Type) where
  output : α
  headers : HeaderMap := []
  deriving DecidableEq

/-- An `S3Error` with the request id of its XML and its own headers. -/
structure ErrorResponse where
  error : S3Error
  requestId : Option String := none
  headers : Option HeaderMap := none
  deriving DecidableEq

/-- `attach_error_request_id`. -/
def attachErrorRequestId (requestId : String) (err : ErrorResponse) : ErrorResponse :=
  let headers : HeaderMap := match headerValueFromStr requestId with
    | some val => HeaderMap.insert [] xAmzRequestId val
    | none => []
  { err with requestId := some requestId
             headers := some (headers.insert "content-type" "application/xml") }

/-! ## The request log -/

/-- `new_request_id`: the time in microseconds and the counter, in hexadecimal. -/
def newRequestId : Op String := do
  let nanos ← systemTime
  let seq ← fetchAdd
  pure (String.ofList (Nat.toDigits 16 (nanos / 1000)) ++ "-" ++ lowerHex seq)

/-- `RequestLog`. -/
structure RequestLog where
  op : String
  requestId : String
  hdfsPath : Option Str := none
  bytesServed : UInt64 := 0
  ok : Bool := false
  deriving DecidableEq, Repr

namespace RequestLog

/-- `RequestLog::new`. -/
def new (op : String) : Op RequestLog := do
  let requestId ← newRequestId
  info (.started requestId op)
  pure { op, requestId }

/-- `set_path`. -/
def setPath (self : RequestLog) (path : Str) : RequestLog := { self with hdfsPath := some path }

/-- `set_bytes`. -/
def setBytes (self : RequestLog) (n : UInt64) : RequestLog := { self with bytesServed := n }

/-- `mark_ok`. -/
def markOk (self : RequestLog) : RequestLog := { self with ok := true }

/-- `attach`. -/
def attach (self : RequestLog) (err : S3Error) : ErrorResponse :=
  attachErrorRequestId self.requestId { error := err }

/-- `drop`. -/
def drop (self : RequestLog) : Op Unit :=
  info (.completed self.requestId self.op (self.hdfsPath.getD []) self.bytesServed self.ok)

end RequestLog

/-- `with_request_id`. -/
def withRequestId {α : Type} (resp : S3Response α) (log : RequestLog) : S3Response α × RequestLog :=
  let resp := match headerValueFromStr log.requestId with
    | some val => { resp with headers := resp.headers.insert xAmzRequestId val }
    | none => resp
  (resp, log.markOk)

/-! ## Operations -/

/-- The write-shaped operations. -/
inductive WriteOp
  | putObject | deleteObject | deleteObjects | createBucket | deleteBucket | copyObject
  | createMultipartUpload | uploadPart | completeMultipartUpload | abortMultipartUpload
  | listMultipartUploads | listParts | restoreObject
  deriving DecidableEq, Repr

/-- The name that an operation is logged under. -/
def WriteOp.name : WriteOp → String
  | putObject => "PutObject"
  | deleteObject => "DeleteObject"
  | deleteObjects => "DeleteObjects"
  | createBucket => "CreateBucket"
  | deleteBucket => "DeleteBucket"
  | copyObject => "CopyObject"
  | createMultipartUpload => "CreateMultipartUpload"
  | uploadPart => "UploadPart"
  | completeMultipartUpload => "CompleteMultipartUpload"
  | abortMultipartUpload => "AbortMultipartUpload"
  | listMultipartUploads => "ListMultipartUploads"
  | listParts => "ListParts"
  | restoreObject => "RestoreObject"

/-- The probes of the configuration of a bucket. -/
inductive ProbeOp
  | getBucketVersioning | getBucketTagging | getBucketAcl | getBucketCors
  deriving DecidableEq, Repr

/-- The name that a probe is logged under. -/
def ProbeOp.name : ProbeOp → String
  | getBucketVersioning => "GetBucketVersioning"
  | getBucketTagging => "GetBucketTagging"
  | getBucketAcl => "GetBucketAcl"
  | getBucketCors => "GetBucketCors"

/-- An operation that a client asks for. -/
inductive Operation
  | headBucket (bucket : Str)
  | listBuckets
  | read (req : S3Request)
  | write (op : WriteOp)
  | probe (op : ProbeOp)
  deriving DecidableEq

/-- The name that an operation is logged under. -/
def Operation.name : Operation → String
  | headBucket _ => "HeadBucket"
  | listBuckets => "ListBuckets"
  | read (.headObject _) => "HeadObject"
  | read (.getObject _ _) => "GetObject"
  | read (.listObjectsV2 _ _) => "ListObjectsV2"
  | write op => op.name
  | probe op => op.name

/-- The output of an operation that succeeds. A probe answers that nothing is configured. -/
inductive OpOutput
  | headBucket
  | listBuckets (name : Str) (creationDate : Timestamp)
  | headObject (output : HeadObjectOutput)
  | getObject (object : GetObject)
  | listObjectsV2 (output : ListObjectsV2Output)
  | notConfigured (op : ProbeOp)
  deriving DecidableEq

/-- What a client gets: a response or an error, and after a GET the body as far as it is polled. The
fuel of a listing may run out in the model. -/
inductive Reply
  | answered (result : Except ErrorResponse (S3Response OpOutput)) (body : Option Body)
  | outOfFuel
  deriving DecidableEq

/-- `write_policy::write_denied`. -/
def writeDenied : S3Error :=
  { code := .accessDenied
    message := some "this gateway is read-only; write operations are not supported" }

/-- The end of an operation with an error: the id is attached, and the log is dropped. -/
def RequestLog.fail (log : RequestLog) (err : S3Error) : Op Reply := do
  log.drop
  pure (.answered (.error (log.attach err)) none)

/-- The end of an operation with an output. -/
def RequestLog.succeed (log : RequestLog) (output : OpOutput) : Op (S3Response OpOutput) := do
  let (resp, log) := withRequestId { output } log
  log.drop
  pure resp

namespace HdfsGateway

section Handlers

variable (self : HdfsGateway)

/-- The path that an operation on a key records, once it is known. -/
def logPath (log : RequestLog) (bucket key : Str) : RequestLog :=
  match self.resolvePath bucket key with
  | .ok hdfsPath => log.setPath hdfsPath
  | .error _ => log

/-- `head_bucket`. -/
def opHeadBucket (bucket : Str) : Op Reply := do
  let log ← RequestLog.new "HeadBucket"
  if bucket ≠ self.mapper.bucket then log.fail { code := .noSuchBucket }
  else
    let resp ← log.succeed .headBucket
    pure (.answered (.ok resp) none)

/-- `list_buckets`. -/
def opListBuckets : Op Reply := do
  let log ← RequestLog.new "ListBuckets"
  let nanos ← systemTime
  let resp ← log.succeed (.listBuckets self.mapper.bucket ⟨nanos / 1000000000, nanos % 1000000000⟩)
  pure (.answered (.ok resp) none)

/-- `head_object`. -/
def opHeadObject (input : HeadObjectInput) : Op Reply := do
  let log ← RequestLog.new "HeadObject"
  let result ← inner (self.headObject input)
  let log := self.logPath log input.bucket input.key
  match result with
  | .error err => log.fail err
  | .ok output =>
    let resp ← log.succeed (.headObject output)
    pure (.answered (.ok resp) none)

/-- `get_object`; the log is dropped before the body is polled. -/
def opGetObject (input : GetObjectInput) (polls : ℕ) : Op Reply := do
  let log ← RequestLog.new "GetObject"
  let result ← inner (self.getObject input)
  let log := self.logPath log input.bucket input.key
  match result with
  | .error err => log.fail err
  | .ok (hdfsPath, object) =>
    let resp ← (log.setBytes object.output.contentLength.toUInt64).succeed (.getObject object)
    let (items, ended) ←
      inner (BytesStream.drain (pollBody hdfsPath object) polls (.new object.remaining))
    pure (.answered (.ok resp) (some ⟨items, ended⟩))

/-- `list_objects_v2`. -/
def opListObjectsV2 (input : ListObjectsV2Input) (fuel : ℕ) : Op Reply := do
  let log ← RequestLog.new "ListObjectsV2"
  match ← inner (self.listObjectsV2 fuel input) with
  | .error (.response err) => log.fail err
  | .error .outOfFuel => pure .outOfFuel
  | .ok output =>
    let resp ← log.succeed (.listObjectsV2 output)
    pure (.answered (.ok resp) none)

end Handlers

/-- A write-shaped operation is denied: `log.finish(Err(write_denied()))`. -/
def denyWrite (op : String) : Op Reply := do
  let log ← RequestLog.new op
  log.fail writeDenied

/-- `put_object`. -/
def putObject : Op Reply := denyWrite "PutObject"

/-- `delete_object`. -/
def deleteObject : Op Reply := denyWrite "DeleteObject"

/-- `delete_objects`. -/
def deleteObjects : Op Reply := denyWrite "DeleteObjects"

/-- `create_bucket`. -/
def createBucket : Op Reply := denyWrite "CreateBucket"

/-- `delete_bucket`. -/
def deleteBucket : Op Reply := denyWrite "DeleteBucket"

/-- `copy_object`. -/
def copyObject : Op Reply := denyWrite "CopyObject"

/-- `create_multipart_upload`. -/
def createMultipartUpload : Op Reply := denyWrite "CreateMultipartUpload"

/-- `upload_part`. -/
def uploadPart : Op Reply := denyWrite "UploadPart"

/-- `complete_multipart_upload`. -/
def completeMultipartUpload : Op Reply := denyWrite "CompleteMultipartUpload"

/-- `abort_multipart_upload`. -/
def abortMultipartUpload : Op Reply := denyWrite "AbortMultipartUpload"

/-- `list_multipart_uploads`. -/
def listMultipartUploads : Op Reply := denyWrite "ListMultipartUploads"

/-- `list_parts`. -/
def listParts : Op Reply := denyWrite "ListParts"

/-- `restore_object`. -/
def restoreObject : Op Reply := denyWrite "RestoreObject"

/-- A probe of the configuration of the bucket answers that nothing is configured. -/
def answerProbe (op : String) (probe : ProbeOp) : Op Reply := do
  let log ← RequestLog.new op
  let resp ← log.succeed (.notConfigured probe)
  pure (.answered (.ok resp) none)

/-- `get_bucket_versioning`. -/
def getBucketVersioning : Op Reply := answerProbe "GetBucketVersioning" .getBucketVersioning

/-- `get_bucket_tagging`. -/
def getBucketTagging : Op Reply := answerProbe "GetBucketTagging" .getBucketTagging

/-- `get_bucket_acl`. -/
def getBucketAcl : Op Reply := answerProbe "GetBucketAcl" .getBucketAcl

/-- `get_bucket_cors`. -/
def getBucketCors : Op Reply := answerProbe "GetBucketCors" .getBucketCors

/-- The handler of a write-shaped operation. -/
def write : WriteOp → Op Reply
  | .putObject => putObject
  | .deleteObject => deleteObject
  | .deleteObjects => deleteObjects
  | .createBucket => createBucket
  | .deleteBucket => deleteBucket
  | .copyObject => copyObject
  | .createMultipartUpload => createMultipartUpload
  | .uploadPart => uploadPart
  | .completeMultipartUpload => completeMultipartUpload
  | .abortMultipartUpload => abortMultipartUpload
  | .listMultipartUploads => listMultipartUploads
  | .listParts => listParts
  | .restoreObject => restoreObject

/-- The handler of a probe. -/
def probe : ProbeOp → Op Reply
  | .getBucketVersioning => getBucketVersioning
  | .getBucketTagging => getBucketTagging
  | .getBucketAcl => getBucketAcl
  | .getBucketCors => getBucketCors

/-- The program of an operation. -/
def operate (self : HdfsGateway) : Operation → Op Reply
  | .headBucket bucket => self.opHeadBucket bucket
  | .listBuckets => self.opListBuckets
  | .read (.headObject input) => self.opHeadObject input
  | .read (.getObject input polls) => self.opGetObject input polls
  | .read (.listObjectsV2 input fuel) => self.opListObjectsV2 input fuel
  | .write op => write op
  | .probe op => probe op

end HdfsGateway

/-! ## The service -/

/-- The line that an executed command logged. -/
def lineOf : Sigma OpCmd.Resp → Option LogLine
  | ⟨.info line, _⟩ => some line
  | _ => none

/-- The world of the gateway, the counter of the process, and what was executed so far. -/
structure Service (crates : Crates) (H : Type) where
  world : World crates H
  requestSeq : UInt64
  executed : List (ℕ × Sigma OpCmd.Resp)

namespace Service

variable {crates : Crates} {H : Type}

/-- The process starts. -/
def init (crates : Crates) (config : CacheConfig) (now : ℕ) (hdfs : H) : Service crates H :=
  ⟨World.init crates config now hdfs, 0, []⟩

/-- Executing a command. The clock of the system may say anything; the counter wraps. -/
inductive Exec (hdfs : Hdfs H) (tid : ℕ) (s : Service crates H) :
    (c : OpCmd) → c.Resp → Service crates H → Prop
  | gateway {c : Cmd} {r : c.Resp} {v : World crates H} (h : s.world.Exec hdfs tid c r v) :
      Exec hdfs tid s (.gateway c) r ⟨v, s.requestSeq, s.executed ++ [(tid, ⟨.gateway c, r⟩)]⟩
  | systemTime (nanos : ℕ) :
      Exec hdfs tid s .systemTime nanos { s with
        executed := s.executed ++ [(tid, ⟨.systemTime, nanos⟩)] }
  | fetchAdd :
      Exec hdfs tid s .fetchAdd s.requestSeq { s with
        requestSeq := s.requestSeq + 1
        executed := s.executed ++ [(tid, ⟨.fetchAdd, s.requestSeq⟩)] }
  | info (line : LogLine) :
      Exec hdfs tid s (.info line) () { s with
        executed := s.executed ++ [(tid, ⟨.info line, ()⟩)] }

/-- The clock of the caches advances or HDFS changes. -/
def Outside (hdfs : Hdfs H) (s s' : Service crates H) : Prop :=
  ∃ v, s.world.Outside hdfs v ∧ s' = { s with world := v }

/-- The lines that were logged, in order. -/
def lines (s : Service crates H) : List LogLine := s.executed.filterMap fun e => lineOf e.2

end Service

/-- The commands of the operations over a behaviour of HDFS. -/
def serviceMachine {H : Type} (crates : Crates) (hdfs : Hdfs H) :
    Machine OpCmd OpCmd.Resp (Service crates H) where
  exec := Service.Exec hdfs
  outside := Service.Outside hdfs

/-- The states of the service that any interleaving of operations can reach. -/
abbrev HdfsGateway.Serves {H : Type} (self : HdfsGateway) (hdfs : Hdfs H) (now : ℕ) (start : H) :
    Pool OpCmd OpCmd.Resp (Service self.crates H) Operation Reply → Prop :=
  Pool.Reachable (serviceMachine self.crates hdfs) self.operate
    (Service.init self.crates self.config.cache now start)

end HdfsS3Gateway
