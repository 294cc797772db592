import HdfsS3Gateway.Core.Resolution

/-!
# Validated settings and the exposed root

`Settings` adds to the configuration of the request path what validation reads besides it. The
check accepts every nonempty root, so the exposed tree is whatever `normalizeRoot` makes of the
string: the directory that the string names, unless the string climbs above `/` on its way to a
directory further down.
-/

namespace HdfsS3Gateway

/-- `ConfigError`, with the texts of the errors it wraps. -/
inductive ConfigError
  | readFile (path : Str) (error : String)
  | parseToml (error : String)
  | missing (field : String)
  | invalid (message : String)
  deriving DecidableEq, Repr

/-- The settings that validation reads. -/
structure Settings extends Config where
  namenodeUri : Str
  deriving DecidableEq, Repr

/-- `Config::validate`. The bucket name check belongs to `s3s`, the quoted form of a string to the
standard library. -/
def Settings.validate (checkBucketName : Str → Bool) (quoted : Str → String) (s : Settings) :
    Except ConfigError Unit :=
  if s.namenodeUri = [] then .error (.missing "namenode_uri")
  else if s.hdfsRoot = [] then .error (.missing "hdfs_root")
  else if s.bucketName = [] then .error (.missing "bucket_name")
  else if s.maxConcurrentRequests = 0 then
    .error (.invalid "max_concurrent_requests must be greater than 0")
  else if s.cache.enabled ∧ s.cache.listingTtlMs > 0 ∧ s.cache.listingCapacityEntries = 0 then
    .error (.invalid "cache.listing_capacity_entries must be greater than 0")
  else if !checkBucketName s.bucketName then
    .error (.invalid ("bucket_name " ++ quoted s.bucketName ++ " is not a valid S3 bucket name"))
  else .ok ()

/-- A leading separator is an empty segment, so a root with it names the same directory. -/
theorem normalizeRoot_eq (root : Str) :
    normalizeRoot root =
      (normalizeAbs (slash :: root)).getD [slash] := by
  unfold normalizeRoot
  simp only []
  split
  · rename_i hslash
    obtain ⟨rest, rfl⟩ := (startsWith_iff _ _).mp hslash
    rw [List.singleton_append, normalizeAbs_slash_cons, normalizeAbs_slash_cons,
      splitSlash_slash_cons, normalizeLoop_nil_cons]
  · rfl

/-- The root of a string that climbs is `/`, that of any other string is what the string names. -/
theorem normalizeRoot_eq_resolve (root : Str) [Decidable (Climbs [] (splitSlash root))] :
    normalizeRoot root =
      absPath (if Climbs [] (splitSlash root) then [] else resolve [] (splitSlash root)) := by
  rw [normalizeRoot_eq]
  split
  · rename_i hclimbs
    rw [normalizeAbs_of_climbs hclimbs]
    rfl
  · rename_i hstays
    rw [normalizeAbs_eq_resolve hstays]
    rfl

/-- A resolved path has plain segments. -/
theorem resolve_plain {base segs : List Str} (hbase : ∀ s ∈ base, Plain s)
    (hsegs : ∀ s ∈ segs, slash ∉ s) : ∀ s ∈ resolve base segs, Plain s :=
  normalizeLoop_plain hbase hsegs
    ((normalizeLoop_eq_resolve false base segs).2 fun h => by contradiction)

/-- The exposed root is the directory that the configured string names, and `/` only if the string
names `/`, exactly for the strings that do not climb above `/` and those that name `/` anyway. -/
theorem root_resolves_iff (settings : Settings) :
    ((PathMapper.new settings.toConfig).root = absPath (resolve [] (splitSlash settings.hdfsRoot)) ∧
        ((PathMapper.new settings.toConfig).root = [slash] →
          resolve [] (splitSlash settings.hdfsRoot) = [])) ↔
      ¬ Climbs [] (splitSlash settings.hdfsRoot) ∨
        resolve [] (splitSlash settings.hdfsRoot) = [] := by
  classical
  have hroot : (PathMapper.new settings.toConfig).root =
      absPath (if Climbs [] (splitSlash settings.hdfsRoot) then []
        else resolve [] (splitSlash settings.hdfsRoot)) :=
    normalizeRoot_eq_resolve settings.hdfsRoot
  have hplain : ∀ s ∈ resolve [] (splitSlash settings.hdfsRoot), Plain s :=
    resolve_plain (fun _ h => by contradiction) fun _ hs => slash_not_mem_of_mem_splitSlash hs
  rw [hroot]
  split
  · rename_i hclimbs
    simp only [hclimbs, not_true_eq_false, false_or]
    exact ⟨fun h => h.2 rfl, fun h => ⟨by rw [h], fun _ => h⟩⟩
  · rename_i hstays
    refine ⟨fun _ => Or.inl hstays, fun _ => ⟨rfl, fun h => ?_⟩⟩
    exact absPath_injective hplain (by simp) h

/-- The root `../data` is accepted and names `/data`, but the exposed root is `/`. -/
theorem root_widened :
    let settings : Settings := {
      namenodeUri := [0x68, 0x64, 0x66, 0x73, 0x3A, 0x2F, 0x2F, 0x6E]
      hdfsRoot := [0x2E, 0x2E, 0x2F, 0x64, 0x61, 0x74, 0x61]
      bucketName := [0x68, 0x64, 0x66, 0x73] }
    settings.validate (fun _ => true) (fun _ => "") = .ok () ∧
      (PathMapper.new settings.toConfig).root = [slash] ∧
      resolve [] (splitSlash settings.hdfsRoot) = [[0x64, 0x61, 0x74, 0x61]] ∧
      ¬ (PathMapper.new settings.toConfig).root =
        absPath (resolve [] (splitSlash settings.hdfsRoot)) := by
  decide +kernel

end HdfsS3Gateway
