import HdfsS3Gateway.Library.Base64
import HdfsS3Gateway.Core.Metadata
import HdfsS3Gateway.Core.Pagination
import HdfsS3Gateway.S3.Caches
import HdfsS3Gateway.S3.Error

/-!
# Requests, responses and third-party crates

The fields of the `s3s` request and response types that the three read operations use, and the
crates whose code the gateway calls. A header that the operation never sets is left out, and so is
the request id, which is different for every request.
-/

namespace HdfsS3Gateway

/-- `Timestamp`: seconds, negative before the epoch, and nanoseconds. -/
structure Timestamp where
  secs : ℤ
  nanos : ℕ
  deriving DecidableEq, Repr

/-- `a < b` on timestamps. -/
def Timestamp.before (a b : Timestamp) : Bool :=
  a.secs < b.secs || a.secs == b.secs && a.nanos < b.nanos

/-- `millis_to_timestamp`. -/
def millisToTimestamp (millis : UInt64) : Timestamp where
  secs := millis.toNat / 1000
  nanos := millis.toNat % 1000 * 1000000

/-- `ETag`. -/
inductive ETag
  | strong (value : String)
  | weak (value : String)
  deriving DecidableEq, Repr

/-- The opaque value of an entity tag. -/
def ETag.value : ETag → String
  | strong value | weak value => value

/-- `ETagCondition`. -/
inductive ETagCondition
  | any
  | etag (other : ETag)
  deriving DecidableEq, Repr

/-- `Range` of `s3s`. -/
inductive Range
  | int (first : UInt64) (last : Option UInt64)
  | suffix (length : UInt64)
  deriving DecidableEq, Repr

/-- The conditional headers of a request. -/
structure Conditions where
  ifMatch : Option ETagCondition := none
  ifUnmodifiedSince : Option Timestamp := none
  ifNoneMatch : Option ETagCondition := none
  ifModifiedSince : Option Timestamp := none
  deriving DecidableEq, Repr

/-- `HeadObjectInput`. -/
structure HeadObjectInput where
  bucket : Str
  key : Str
  conditions : Conditions := {}
  deriving DecidableEq, Repr

/-- `GetObjectInput`. -/
structure GetObjectInput where
  bucket : Str
  key : Str
  conditions : Conditions := {}
  range : Option Range := none
  deriving DecidableEq, Repr

/-- `ListObjectsV2Input`; the 32-bit `max_keys` is an integer here. -/
structure ListObjectsV2Input where
  bucket : Str
  pre : Option Str := none
  delimiter : Option Str := none
  maxKeys : Option ℤ := none
  continuationToken : Option Str := none
  startAfter : Option Str := none
  deriving DecidableEq, Repr

/-- `HeadObjectOutput`. -/
structure HeadObjectOutput where
  acceptRanges : String
  contentLength : Int64
  contentType : String
  lastModified : Timestamp
  eTag : ETag
  deriving DecidableEq

/-- `GetObjectOutput`, without its body. -/
structure GetObjectOutput where
  acceptRanges : String
  contentLength : Int64
  contentRange : Option String
  lastModified : Timestamp
  eTag : ETag
  contentType : String
  deriving DecidableEq

/-- `Object`: one listed object. -/
structure Object where
  key : Str
  size : Int64
  lastModified : Timestamp
  eTag : ETag
  deriving DecidableEq

/-- `ListObjectsV2Output`. -/
structure ListObjectsV2Output where
  name : Str
  pre : Option Str
  delimiter : Option Str
  maxKeys : ℤ
  isTruncated : Bool
  contents : Option (List Object)
  commonPrefixes : Option (List Str)
  continuationToken : Option Str
  nextContinuationToken : Option Str
  keyCount : ℤ
  deriving DecidableEq

/-- The third-party code the gateway calls and the largest `usize` of the platform, with what it
relies on: entity tags compare as RFC 9110 defines it. -/
structure Crates where
  lru : Lru.Crate Str
  usizeMax : ℕ
  mimeGuess : Str → Option String
  errorText : HdfsError → String
  urlSafeNoPad : Base64Engine
  standard : Base64Engine
  strongCmp : ETag → ETag → Bool
  strongCmp_iff : ∀ a b, strongCmp a b = true ↔ ∃ value, a = .strong value ∧ b = .strong value
  weakCmp : ETag → ETag → Bool
  weakCmp_iff : ∀ a b, weakCmp a b = true ↔ a.value = b.value

/-- The crates as they are documented, on a 64-bit platform, with a content type table that knows no
name and a fixed error text. -/
def Crates.reference : Crates where
  lru := Lru.listCrate Str
  usizeMax := 2 ^ 64 - 1
  mimeGuess _ := none
  errorText _ := "HDFS error"
  urlSafeNoPad :=
    ⟨Base64.urlSafe.encode, Base64.urlSafe.decode, Base64.urlSafe.decode_encode⟩
  standard :=
    ⟨Base64.standard.encodePadded, Base64.standard.decodePadded,
      Base64.standard.decodePadded_encodePadded⟩
  strongCmp a b := match a, b with
    | .strong a, .strong b => a == b
    | _, _ => false
  strongCmp_iff a b := by
    cases a <;> cases b <;> simp only [beq_iff_eq, ETag.strong.injEq, reduceCtorEq, false_and,
      and_false, exists_false, exists_eq_left', Bool.false_eq_true]
    exact eq_comm
  weakCmp a b := a.value == b.value
  weakCmp_iff _ _ := beq_iff_eq

/-- `GetBodyError`: what ends a response body early. -/
inductive GetBodyError
  | upstream (err : HdfsError)
  | shortRead (expected got : ℕ)
  deriving DecidableEq, Repr

/-- A chunk of a stream, as `Stream::Item`. -/
abbrev Chunk (E : Type) := Except E (List UInt8)

end HdfsS3Gateway
