import Mathlib.Data.List.Infix

/-!
# HDFS errors and their S3 form

`mapHdfsError` turns an error of the HDFS client into the error a client of the gateway sees. Two
classifications of the upstream exception class are shared with the listing code: an access denial
of one directory, and a cluster that cannot serve at the moment.
-/

namespace HdfsS3Gateway

/-- The errors of `hdfs_native` that the gateway tells apart; `other` names any further variant. -/
inductive HdfsError
  | fileNotFound (path : String)
  | isADirectoryError (path : String)
  | invalidPath (message : String)
  | invalidArgument (message : String)
  | unsupportedFeature (feature : String)
  | unsupportedErasureCodingPolicy (policy : String)
  | rpcError (exception message : String)
  | fatalRPCError (exception message : String)
  | saslError (message : String)
  | gssapiError (message : String)
  | noSASLMechanism
  | other (variant message : String)
  deriving DecidableEq, Repr

/-- The S3 error codes the gateway answers with. -/
inductive S3ErrorCode
  | noSuchBucket | noSuchKey | invalidArgument | invalidToken | invalidRange
  | preconditionFailed | notModified | internalError | accessDenied | notImplemented
  | serviceUnavailable | slowDown
  deriving DecidableEq, Repr

/-- The HTTP status that `s3s` serializes an error code with. -/
def S3ErrorCode.statusCode : S3ErrorCode → ℕ
  | noSuchBucket | noSuchKey => 404
  | invalidArgument | invalidToken => 400
  | invalidRange => 416
  | preconditionFailed => 412
  | notModified => 304
  | internalError => 500
  | accessDenied => 403
  | notImplemented => 501
  | serviceUnavailable | slowDown => 503

/-- An S3 error response; without a message the client sees only the code. -/
structure S3Error where
  code : S3ErrorCode
  message : Option String := none
  deriving DecidableEq, Repr

/-- `s.ends_with(suffix)`. -/
def endsWith (s suffix : String) : Bool := suffix.toList.isSuffixOf s.toList

/-- `is_access_denied`: the exception class denotes a permission denial. -/
def isAccessDenied (exception : String) : Bool :=
  endsWith exception "AccessControlException"
    || endsWith exception "AuthorizationException"
    || endsWith exception "AccessDeniedException"
    || endsWith exception "PermissionDeniedException"
    || endsWith exception "PermissionDenied"

/-- `is_unavailable`: the cluster cannot serve at the moment. -/
def isUnavailable (exception : String) : Bool :=
  endsWith exception "StandbyException" || endsWith exception "SafeModeException"

/-- `is_dir_denied`: the directory itself is unreadable for the gateway's user. -/
def isDirDenied : HdfsError → Bool
  | .rpcError exception _ | .fatalRPCError exception _ => isAccessDenied exception
  | _ => false

/-- The code that `map_hdfs_error` picks. -/
def hdfsErrorCode : HdfsError → S3ErrorCode
  | .fileNotFound _ | .isADirectoryError _ | .invalidPath _ => .noSuchKey
  | .invalidArgument _ => .invalidArgument
  | .unsupportedFeature _ | .unsupportedErasureCodingPolicy _ => .notImplemented
  | .saslError _ | .gssapiError _ | .noSASLMechanism => .accessDenied
  | .rpcError exception _ | .fatalRPCError exception _ =>
    if isAccessDenied exception then .accessDenied
    else if isUnavailable exception then .serviceUnavailable
    else .internalError
  | .other _ _ => .internalError

/-- `map_hdfs_error`: the not-found family never carries a message, the rest carries the text of the
HDFS error when `expose` is set. -/
def mapHdfsError (errorText : HdfsError → String) (err : HdfsError) (expose : Bool) : S3Error :=
  match err with
  | .fileNotFound _ | .isADirectoryError _ | .invalidPath _ => { code := .noSuchKey }
  | err =>
    if expose then { code := hdfsErrorCode err, message := some (errorText err) }
    else { code := hdfsErrorCode err }

/-- The mapping always answers with the code of the classification. -/
theorem mapHdfsError_code (errorText : HdfsError → String) (err : HdfsError) (expose : Bool) :
    (mapHdfsError errorText err expose).code = hdfsErrorCode err := by
  cases err <;> cases expose <;> rfl

/-- An unreadable directory is reported as a denied access. -/
theorem hdfsErrorCode_of_isDirDenied {err : HdfsError} (h : isDirDenied err = true) :
    hdfsErrorCode err = .accessDenied := by
  cases err <;> simp_all [isDirDenied, hdfsErrorCode]

end HdfsS3Gateway
