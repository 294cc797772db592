import HdfsS3Gateway.S3.BytesStream
import HdfsS3Gateway.S3.SortedListing
import HdfsS3Gateway.Core.Range

/-!
# The read operations of the gateway

HEAD, GET and ListObjectsV2 as programs. Their commands are the cache operations, which are atomic
under a mutex, and the calls to HDFS; everything between two commands is pure. The programs say
nothing about what happens between their commands, so any number of them may be interleaved.

`read` carries the metadata that the request opens the reader for. It is no argument of the call;
it records for a later reader which request state the call was made in.
-/

namespace HdfsS3Gateway

open Interaction Overflow

/-! ## Commands -/

/-- The calls to HDFS. -/
inductive Upstream
  | getFileInfo (path : Str)
  | read (path : Str) (label : FileMeta)
  | listStatus (path : Str)
  | pollRange (reader : FileReader) (start len position : ℕ)
  deriving DecidableEq, Repr

/-- What each call is answered with. -/
def Upstream.Reply : Upstream → Type
  | getFileInfo _ => Except HdfsError FileStatus
  | read _ _ => Except HdfsError FileReader
  | listStatus _ => Except HdfsError (List FileStatus)
  | pollRange _ _ _ _ => Option (Chunk HdfsError)

instance : (u : Upstream) → DecidableEq u.Reply
  | .getFileInfo _ => inferInstanceAs (DecidableEq (Except HdfsError FileStatus))
  | .read _ _ => inferInstanceAs (DecidableEq (Except HdfsError FileReader))
  | .listStatus _ => inferInstanceAs (DecidableEq (Except HdfsError (List FileStatus)))
  | .pollRange _ _ _ _ => inferInstanceAs (DecidableEq (Option (Chunk HdfsError)))

/-- The commands of a request: operations on the caches and calls to HDFS. -/
inductive Cmd
  | cacheGet (name : CacheName) (path : Str)
  | cacheInsert (name : CacheName) (path : Str) (value : name.Value) (weight : ℕ)
  | cacheRemove (name : CacheName) (path : Str)
  | upstream (u : Upstream)
  deriving DecidableEq

/-- What each command returns. -/
def Cmd.Resp : Cmd → Type
  | cacheGet name _ => Option name.Value
  | cacheInsert _ _ _ _ | cacheRemove _ _ => Unit
  | upstream u => u.Reply

instance : (c : Cmd) → DecidableEq c.Resp
  | .cacheGet name _ => inferInstanceAs (DecidableEq (Option name.Value))
  | .cacheInsert _ _ _ _ | .cacheRemove _ _ => inferInstanceAs (DecidableEq Unit)
  | .upstream u => inferInstanceAs (DecidableEq u.Reply)

/-- A request in progress. -/
abbrev Req (α : Type) := Prog Cmd Cmd.Resp α

/-- `cache.<name>.get(path)`. -/
def cacheGet (name : CacheName) (path : Str) : Req (Option name.Value) :=
  Prog.perform (Cmd.cacheGet name path)

/-- `cache.<name>.insert(path, value, weight)`. -/
def cacheInsert (name : CacheName) (path : Str) (value : name.Value) (weight : ℕ) : Req Unit :=
  Prog.perform (Cmd.cacheInsert name path value weight)

/-- `cache.<name>.remove(path)`. -/
def cacheRemove (name : CacheName) (path : Str) : Req Unit := Prog.perform (Cmd.cacheRemove name path)

/-- A call to HDFS. -/
def callUpstream (u : Upstream) : Req u.Reply := Prog.perform (Cmd.upstream u)

/-! ## Responses and their parts -/

/-- `ObjectMetadata::from_hdfs` on cached metadata, without a checksum. -/
def objectMetadata (hdfsPath : Str) (fileMeta : FileMeta) : ObjectMetadata where
  path := hdfsPath
  length := fileMeta.length
  isDir := fileMeta.isdir
  modificationTime := fileMeta.modificationTime
  checksum := none

/-- `fmt_content_range`. -/
def fmtContentRange (start endInclusive size : UInt64) : String :=
  "bytes " ++ toString start.toNat ++ "-" ++ toString endInclusive.toNat ++ "/" ++
    toString size.toNat

/-- The byte window of a response and its `Content-Range`. -/
structure Window where
  start : UInt64
  endExclusive : UInt64
  contentLength : UInt64
  contentRange : Option String
  deriving DecidableEq, Repr

/-- The range header as the resolver takes it. -/
def Range.toByteRange : Range → ByteRange
  | .int first (some last) => .inclusive first last
  | .int first none => .from first
  | .suffix length => .suffix length

/-- The window of a GET: the whole file, or the resolved range. -/
def resolveWindow (fileLen : UInt64) : Option Range → Tracked (Except S3Error Window)
  | none => pure (.ok ⟨0, fileLen, fileLen, none⟩)
  | some range => do
    match ← resolveRange fileLen (Range.toByteRange range) with
    | none => pure (.error { code := .invalidRange })
    | some (s, e) =>
      let len ← subU64 e s
      let last ← subU64 e 1
      pure (.ok ⟨s, e, len, some (fmtContentRange s last fileLen)⟩)

/-- The headers of a GET response and its window as offsets for the reader. -/
structure Prepared where
  output : GetObjectOutput
  windowStart : ℕ
  windowEnd : ℕ
  deriving DecidableEq

/-- A successful GET: the headers, and the window that the body streams from the reader. -/
structure GetObject where
  output : GetObjectOutput
  reader : FileReader
  windowStart : ℕ
  remaining : ℕ
  deriving DecidableEq

/-- The items of a body that a client polls so many times, and whether the body ended. -/
structure Body where
  items : List (Chunk GetBodyError)
  ended : Bool
  deriving DecidableEq

/-- What ends a listing request without a page: an error response, or the fuel of the model. -/
inductive ListFailure
  | response (err : S3Error)
  | outOfFuel
  deriving DecidableEq, Repr

/-- The checked arguments of a listing. -/
structure ListArgs where
  pre : Str
  delimiter : Option Str
  maxKeys : ℕ
  startAfter : Option Str
  deriving DecidableEq, Repr

/-- One listed object. -/
def listedObject (e : ListEntry) : Object where
  key := e.key
  size := e.size.toInt64
  lastModified := millisToTimestamp e.modificationTime
  eTag := .strong (fallbackEtag e.size e.modificationTime)

/-- A request of a client. -/
inductive S3Request
  | headObject (input : HeadObjectInput)
  | getObject (input : GetObjectInput) (polls : ℕ)
  | listObjectsV2 (input : ListObjectsV2Input) (fuel : ℕ)
  deriving DecidableEq

/-- Its response. -/
inductive Response
  | headObject (result : Except S3Error HeadObjectOutput)
  | getObject (result : Except S3Error (GetObject × Body))
  | listObjectsV2 (result : Except ListFailure ListObjectsV2Output)
  deriving DecidableEq

/-! ## The gateway -/

/-- `HdfsGateway`: the path mapper and the configuration, over the third-party crates. -/
structure HdfsGateway where
  mapper : PathMapper
  config : Config
  crates : Crates

namespace HdfsGateway

/-- `HdfsGateway::new`. -/
def new (crates : Crates) (config : Config) : HdfsGateway :=
  { mapper := PathMapper.new config, config, crates }

variable (self : HdfsGateway)

/-- `map_hdfs_error(err, self.config.expose_upstream_errors)`. -/
def mapError (err : HdfsError) : S3Error :=
  mapHdfsError self.crates.errorText err self.config.exposeUpstreamErrors

/-- The reply of `get_file_info`, remembered and mapped. -/
def statFile (hdfsPath : Str) : Req (Except S3Error FileMeta) := do
  match ← callUpstream (.getFileInfo hdfsPath) with
  | .ok status =>
    let fileMeta : FileMeta :=
      { length := status.length, isdir := status.isdir, modificationTime := status.modificationTime }
    cacheInsert .metadata hdfsPath fileMeta 1
    pure (.ok fileMeta)
  | .error (.fileNotFound _) =>
    cacheInsert .negative hdfsPath () 1
    pure (.error { code := .noSuchKey })
  | .error err => pure (.error (self.mapError err))

/-- `file_meta`: the metadata of a path, through the metadata and the negative cache. -/
def fileMeta (hdfsPath : Str) : Req (Except S3Error FileMeta) := do
  match ← cacheGet .metadata hdfsPath with
  | some fileMeta => pure (.ok fileMeta)
  | none =>
    match ← cacheGet .negative hdfsPath with
    | some () => pure (.error { code := .noSuchKey })
    | none => self.statFile hdfsPath

/-- Open the path for this metadata and remember the reader; a failure drops the metadata. -/
def readFile (hdfsPath : Str) (fileMeta : FileMeta) : Req (Except S3Error FileReader) := do
  match ← callUpstream (.read hdfsPath fileMeta) with
  | .ok reader =>
    cacheInsert .blocks hdfsPath
      { reader, length := fileMeta.length, modificationTime := fileMeta.modificationTime } 1
    pure (.ok reader)
  | .error err =>
    cacheRemove .metadata hdfsPath
    pure (.error (self.mapError err))

/-- `open_reader`: reuse the cached reader if it was opened for this identity, else open anew. -/
def openReader (hdfsPath : Str) (fileMeta : FileMeta) : Req (Except S3Error FileReader) := do
  match ← cacheGet .blocks hdfsPath with
  | some cached =>
    if cached.length = fileMeta.length ∧ cached.modificationTime = fileMeta.modificationTime then
      pure (.ok cached.reader)
    else
      cacheRemove .blocks hdfsPath
      self.readFile hdfsPath fileMeta
  | none => self.readFile hdfsPath fileMeta

/-! ## HEAD and GET -/

/-- The conditional headers, in the order in which both operations check them. -/
def checkConditions (conditions : Conditions) (etag : ETag) (lastModified : Timestamp) :
    Except S3Error Unit := do
  if let some cond := conditions.ifMatch then
    let matched := match cond with
      | .any => true
      | .etag other => self.crates.strongCmp etag other
    if !matched then throw { code := .preconditionFailed }
  if let some since := conditions.ifUnmodifiedSince then
    if since.before lastModified then throw { code := .preconditionFailed }
  if let some cond := conditions.ifNoneMatch then
    let notModified := match cond with
      | .any => true
      | .etag other => self.crates.weakCmp etag other
    if notModified then throw { code := .notModified }
  if let some since := conditions.ifModifiedSince then
    if !since.before lastModified then throw { code := .notModified }

/-- What both operations do before the metadata is needed: check the bucket and map the key. -/
def resolvePath (bucket key : Str) : Except S3Error Str :=
  if bucket ≠ self.mapper.bucket then .error { code := .noSuchBucket }
  else match self.mapper.keyToHdfsPath key with
    | none => .error { code := .noSuchKey }
    | some hdfsPath => .ok hdfsPath

/-- The part of `head_object` after the metadata is known. -/
def headResponse (input : HeadObjectInput) (hdfsPath : Str) (status : FileMeta) :
    Except S3Error HeadObjectOutput :=
  if status.isdir then .error { code := .noSuchKey }
  else do
    let object := objectMetadata hdfsPath status
    let etag := ETag.strong object.etag
    let lastModified := millisToTimestamp status.modificationTime
    self.checkConditions input.conditions etag lastModified
    pure {
      acceptRanges := "bytes"
      contentLength := status.length.toInt64
      contentType := object.contentType self.crates.mimeGuess
      lastModified
      eTag := etag }

/-- `head_object`. -/
def headObject (input : HeadObjectInput) : Req (Except S3Error HeadObjectOutput) := do
  match self.resolvePath input.bucket input.key with
  | .error err => pure (.error err)
  | .ok hdfsPath =>
    match ← self.fileMeta hdfsPath with
    | .error err => pure (.error err)
    | .ok status => pure (self.headResponse input hdfsPath status)

/-- `usize::try_from`. -/
def usizeTryFrom (n : UInt64) : Option ℕ :=
  if n.toNat ≤ self.crates.usizeMax then some n.toNat else none

/-- The part of `get_object` between the metadata and the reader. -/
def prepare (input : GetObjectInput) (hdfsPath : Str) (status : FileMeta) :
    Except S3Error Prepared :=
  if status.isdir then .error { code := .noSuchKey }
  else do
    let lastModified := millisToTimestamp status.modificationTime
    let object := objectMetadata hdfsPath status
    let etag := ETag.strong object.etag
    let contentType := object.contentType self.crates.mimeGuess
    self.checkConditions input.conditions etag lastModified
    let window ← (resolveWindow status.length input.range).value
    match self.usizeTryFrom window.start, self.usizeTryFrom window.endExclusive with
    | some windowStart, some windowEnd =>
      pure {
        windowStart, windowEnd
        output := {
          acceptRanges := "bytes"
          contentLength := window.contentLength.toInt64
          contentRange := window.contentRange
          lastModified
          eTag := etag
          contentType } }
    | _, _ => .error { code := .invalidRange }

/-- The end of `get_object`: open a reader, which must be long enough for the window. -/
def openObject (hdfsPath : Str) (status : FileMeta) (prepared : Prepared) :
    Req (Except S3Error (Str × GetObject)) := do
  match ← self.openReader hdfsPath status with
  | .error err => pure (.error err)
  | .ok reader =>
    if reader.fileLength < prepared.windowEnd then
      cacheRemove .blocks hdfsPath
      cacheRemove .metadata hdfsPath
      pure (.error { code := .internalError })
    else
      let remaining :=
        (subUsize self.crates.usizeMax prepared.windowEnd prepared.windowStart).value
      pure (.ok (hdfsPath, {
        output := prepared.output, reader, windowStart := prepared.windowStart, remaining }))

/-- `get_object`, up to the response headers. -/
def getObject (input : GetObjectInput) : Req (Except S3Error (Str × GetObject)) := do
  match self.resolvePath input.bucket input.key with
  | .error err => pure (.error err)
  | .ok hdfsPath =>
    match ← self.fileMeta hdfsPath with
    | .error err => pure (.error err)
    | .ok status =>
      match self.prepare input hdfsPath status with
      | .error err => pure (.error err)
      | .ok prepared => self.openObject hdfsPath status prepared

/-- A poll of the reader's range stream; an error evicts the block map and the metadata. -/
def pollBody (hdfsPath : Str) (object : GetObject) (position : ℕ) :
    Req (Option (Chunk HdfsError)) := do
  match ← callUpstream (.pollRange object.reader object.windowStart object.remaining position) with
  | some (.error err) =>
    cacheRemove .blocks hdfsPath
    cacheRemove .metadata hdfsPath
    pure (some (.error err))
  | item => pure item

/-- A GET whose body is polled so many times; a client that disconnects polls it fewer times. -/
def serveGet (input : GetObjectInput) (polls : ℕ) : Req (Except S3Error (GetObject × Body)) := do
  match ← self.getObject input with
  | .error err => pure (.error err)
  | .ok (hdfsPath, object) =>
    let (items, ended) ←
      BytesStream.drain (pollBody hdfsPath object) polls (.new object.remaining)
    pure (.ok (object, ⟨items, ended⟩))

/-! ## ListObjectsV2 -/

/-- The listing of a directory as HDFS answers it, remembered unless it is too large. -/
def fetchDir (dir : Str) : Req (Except HdfsError DirListing) := do
  match ← callUpstream (.listStatus dir) with
  | .error err => pure (.error err)
  | .ok statuses =>
    let listing := listingFromStatuses statuses self.mapper
    let weight := listing.files.length + listing.dirs.length
    if weight ≤ self.config.cache.listingMaxDirEntries then
      cacheInsert .dirs dir listing weight
    pure (.ok listing)

/-- `HdfsDirLister::list_dir`: the listing of one directory, through the directory cache. -/
def listDir (dir : Str) : Req (Except HdfsError DirListing) := do
  match ← cacheGet .dirs dir with
  | some listing => pure (.ok listing)
  | none => self.fetchDir dir

/-- The page size: 1000 by default, and never negative. -/
def maxKeysOf : Option ℤ → Except S3Error ℕ
  | none => pure 1000
  | some n =>
    if n < 0 then
      .error { code := .invalidArgument, message := some "max-keys must not be negative" }
    else pure n.toNat

/-- The key to resume after: the decoded continuation token, or `start-after`. -/
def startAfterOf (input : ListObjectsV2Input) : Except S3Error (Option Str) :=
  match input.continuationToken with
  | some token =>
    match decodeToken self.crates.urlSafeNoPad self.crates.standard token with
    | some key => pure (some key)
    | none => .error { code := .invalidToken }
  | none => pure input.startAfter

/-- The checks of `list_objects_v2` before anything is listed. -/
def listArgs (input : ListObjectsV2Input) : Except S3Error ListArgs :=
  if input.bucket ≠ self.mapper.bucket then .error { code := .noSuchBucket }
  else do
    let maxKeys ← maxKeysOf input.maxKeys
    let startAfter ← self.startAfterOf input
    pure {
      pre := input.pre.getD []
      delimiter := input.delimiter.filter fun d => !d.isEmpty
      maxKeys, startAfter }

/-- The entries of a recursive listing, by the sorted merge over the cached directory listings. -/
def collectFlat (fuel : ℕ) (args : ListArgs) (maxKeys : Option ℕ) :
    Req (Except ListFailure (List ListEntry × Bool)) := do
  match self.mapper.listStart args.pre with
  | none => pure (.ok ([], false))
  | some hdfsStart =>
    let listing := SortedListing.new hdfsStart args.pre args.startAfter self.mapper
    match ← (listing.collectPage fuel maxKeys).handle self.listDir with
    | .ok page => pure (.ok page)
    | .error .outOfFuel => pure (.error .outOfFuel)
    | .error (.upstream err) => pure (.error (.response (self.mapError err)))

/-- The one directory listing that the delimiter `/` needs; empty when no key can match. -/
def listStartDir (args : ListArgs) : Req (Except HdfsError DirListing) :=
  match self.mapper.listStart args.pre with
  | none => pure (.ok DirListing.empty)
  | some hdfsStart => self.listDir hdfsStart

/-- The page for the delimiter `/`. -/
def pageSlash (args : ListArgs) : Req (Except ListFailure Page) := do
  match ← self.listStartDir args with
  | .ok listing =>
    pure (.ok (paginateSlash listing.files listing.dirs args.pre args.startAfter args.maxKeys))
  | .error (.fileNotFound _) =>
    pure (.ok (paginateSlash [] [] args.pre args.startAfter args.maxKeys))
  | .error err => pure (.error (.response (self.mapError err)))

/-- The whole matching subtree, unless no key is asked for. -/
def collectAll (fuel : ℕ) (args : ListArgs) : Req (Except ListFailure (List ListEntry × Bool)) :=
  if args.maxKeys = 0 then pure (.ok ([], false)) else self.collectFlat fuel args none

/-- The page for any other delimiter: the whole matching subtree, then the general paginator. -/
def pageDelimiter (fuel : ℕ) (args : ListArgs) : Req (Except ListFailure Page) := do
  let collected ← self.collectAll fuel args
  pure (collected.map fun (entries, _) =>
    paginate entries [] args.pre args.delimiter args.startAfter args.maxKeys)

/-- The page without a delimiter: as many entries of the sorted merge as it holds. -/
def pageFlat (fuel : ℕ) (args : ListArgs) : Req (Except ListFailure Page) := do
  let collected ← self.collectFlat fuel args (some args.maxKeys)
  pure (collected.map fun (entries, isTruncated) =>
    { contents := entries
      commonPrefixes := []
      isTruncated
      nextToken := if isTruncated then entries.getLast?.map ListEntry.key else none })

/-- The page of a request, by the delimiter. -/
def listPage (fuel : ℕ) (args : ListArgs) : Req (Except ListFailure Page) :=
  if args.delimiter = some [slash] then self.pageSlash args
  else if args.delimiter.isSome then self.pageDelimiter fuel args
  else self.pageFlat fuel args

/-- The response that a page makes. -/
def listOutput (input : ListObjectsV2Input) (args : ListArgs) (page : Page) :
    ListObjectsV2Output where
  name := self.mapper.bucket
  pre := input.pre
  delimiter := input.delimiter
  maxKeys := args.maxKeys
  isTruncated := page.isTruncated && page.nextToken.isSome
  contents := if page.contents.isEmpty then none else some (page.contents.map listedObject)
  commonPrefixes := if page.commonPrefixes.isEmpty then none else some page.commonPrefixes
  continuationToken := input.continuationToken
  nextContinuationToken := page.nextToken.map (encodeToken self.crates.urlSafeNoPad)
  keyCount := (page.contents.length + page.commonPrefixes.length : ℕ)

/-- `list_objects_v2`. -/
def listObjectsV2 (fuel : ℕ) (input : ListObjectsV2Input) :
    Req (Except ListFailure ListObjectsV2Output) := do
  match self.listArgs input with
  | .error err => pure (.error (.response err))
  | .ok args =>
    let page ← self.listPage fuel args
    pure (page.map (self.listOutput input args))

/-! ## Requests -/

/-- The program that serves a request. -/
def serve : S3Request → Req Response
  | .headObject input => Response.headObject <$> self.headObject input
  | .getObject input polls => Response.getObject <$> self.serveGet input polls
  | .listObjectsV2 input fuel => Response.listObjectsV2 <$> self.listObjectsV2 fuel input

end HdfsGateway

end HdfsS3Gateway
