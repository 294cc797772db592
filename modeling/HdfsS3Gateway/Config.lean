import HdfsS3Gateway.Core.Bytes

/-!
# The resolved gateway configuration

The fields of `Config` and `CacheConfig` that the request path reads. Times are in milliseconds
and capacities are entry counts, as in the source.
-/

namespace HdfsS3Gateway

/-- `CacheConfig`: bounded TTL caches, disabled by default. -/
structure CacheConfig where
  enabled : Bool := false
  metadataTtlMs : ℕ := 1000
  blocksTtlMs : ℕ := 10000
  listingTtlMs : ℕ := 5000
  negativeTtlMs : ℕ := 1000
  metadataCapacity : ℕ := 100000
  blocksCapacity : ℕ := 512
  listingCapacityEntries : ℕ := 200000
  listingMaxDirEntries : ℕ := 50000
  deriving DecidableEq, Repr

/-- `Config`: the settings the gateway is built from. -/
structure Config where
  hdfsRoot : Str
  bucketName : Str
  maxConcurrentRequests : ℕ := 2048
  exposeUpstreamErrors : Bool := false
  cache : CacheConfig := {}
  deriving DecidableEq, Repr

end HdfsS3Gateway
