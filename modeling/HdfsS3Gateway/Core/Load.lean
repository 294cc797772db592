import HdfsS3Gateway.Core.Pagination
import HdfsS3Gateway.Core.Settings
import HdfsS3Gateway.Library.Utf8
import Mathlib.Logic.Function.Basic

/-!
# Loading the configuration

A configuration comes from a file, if one is given, or else from three environment variables; flags
override it, and the result is validated. The environment is taken as a whole: if one of the three
variables is missing, the other two are ignored as well, and the built-in configuration takes their
place, with a root, a bucket and a NameNode that nobody asked for.
-/

namespace HdfsS3Gateway

/-! ## The strings of the operating system -/

/-- What the second byte of a longer sequence may be after the first one. -/
def secondByte (first second : UInt8) : Bool :=
  let low : UInt8 := if first = 0xE0 then 0xA0 else if first = 0xF0 then 0x90 else 0x80
  let high : UInt8 := if first = 0xED then 0x9F else if first = 0xF4 then 0x8F else 0xBF
  low ≤ second && second ≤ high

/-- How many bytes the UTF-8 decoder takes from the front, and whether they are a character. -/
def utf8Chunk : Str → ℕ × Bool
  | [] => (0, false)
  | first :: rest =>
    let second := rest[0]?.any (secondByte first)
    let follows (i : ℕ) : Bool := rest[i]?.any (secondByte 0x80)
    if first < 0x80 then (1, true)
    else if 0xC2 ≤ first ∧ first ≤ 0xDF then if second then (2, true) else (1, false)
    else if 0xE0 ≤ first ∧ first ≤ 0xEF then
      if !second then (1, false) else if follows 1 then (3, true) else (2, false)
    else if 0xF0 ≤ first ∧ first ≤ 0xF4 then
      if !second then (1, false)
      else if !follows 1 then (2, false)
      else if follows 2 then (4, true) else (3, false)
    else (1, false)

/-- `to_string_lossy`, for the given number of chunks. -/
def lossyChunks : ℕ → Str → Str
  | 0, _ => []
  | _ + 1, [] => []
  | n + 1, s =>
    let chunk := utf8Chunk s
    (if chunk.2 then s.take chunk.1 else [0xEF, 0xBF, 0xBD]) ++ lossyChunks n (s.drop chunk.1)

/-- `to_string_lossy`: what is no character becomes the replacement character. -/
def toStringLossy (s : Str) : Str := lossyChunks s.length s

/-- The characters with the property `White_Space`, as their bytes. -/
def whiteSpace : List Str :=
  [[0x09], [0x0A], [0x0B], [0x0C], [0x0D], [0x20], [0xC2, 0x85], [0xC2, 0xA0], [0xE1, 0x9A, 0x80]] ++
    [0x80, 0x81, 0x82, 0x83, 0x84, 0x85, 0x86, 0x87, 0x88, 0x89, 0x8A, 0xA8, 0xA9, 0xAF].map
      (fun last => [0xE2, 0x80, last]) ++
    [[0xE2, 0x81, 0x9F], [0xE3, 0x80, 0x80]]

/-- Remove the given characters from the front, at most so many. -/
def trimFront (chars : List Str) : ℕ → Str → Str
  | 0, s => s
  | n + 1, s =>
    match chars.find? (startsWith s) with
    | some c => trimFront chars n (s.drop c.length)
    | none => s

/-- `trim`. -/
def trim (s : Str) : Str :=
  let front := trimFront whiteSpace s.length s
  (trimFront (whiteSpace.map List.reverse) front.length front.reverse).reverse

/-- `to_ascii_lowercase`. -/
def toAsciiLowercase (s : Str) : Str := s.map fun c => if 65 ≤ c ∧ c ≤ 90 then c + 32 else c

/-! ## The sources of a configuration -/

/-- What a process reads: its environment, as the bytes of the values, and files. -/
structure Os where
  env : String → Option Str
  readToString : Str → Except String Str

/-- `std::env::var(name).ok()`. -/
def Os.var (os : Os) (name : String) : Option Str := (os.env name).bind stringFromUtf8

/-- `CliArgs`. -/
structure CliArgs where
  config : Option Str := none
  listenAddr : Option Str := none
  namenodeUri : Option Str := none
  hdfsRoot : Option Str := none
  bucketName : Option Str := none
  authSecret : Option Str := none
  hdfsUser : Option Str := none
  hdfsConfigDir : Option Str := none
  hdfsOptions : Option (List (Str × Str)) := none
  noCache : Bool := false
  cache : Bool := false

/-- `Config` with all its fields. -/
structure FullConfig extends Settings where
  listenAddr : Str
  hdfsOptions : Str → Option Str
  hdfsConfigDir : Option Str
  hdfsUser : Option Str
  authSecret : Option Str

/-- `default_listen_addr`. -/
def defaultListenAddr : Str := Utf8.encode "0.0.0.0:8080".toList

/-- `default_max_concurrent_requests`. -/
def defaultMaxConcurrentRequests : ℕ := 2048

namespace FullConfig

/-- The three required settings, and for the rest what `from_env` and `Default` agree on. -/
def ofRequired (namenodeUri hdfsRoot bucketName : Str) : FullConfig where
  namenodeUri := namenodeUri
  hdfsRoot := hdfsRoot
  bucketName := bucketName
  listenAddr := defaultListenAddr
  maxConcurrentRequests := defaultMaxConcurrentRequests
  exposeUpstreamErrors := true
  hdfsOptions _ := none
  hdfsConfigDir := none
  hdfsUser := none
  cache := {}
  authSecret := none

/-- `Config::from_env`. -/
def fromEnv (os : Os) : Option FullConfig := do
  let namenodeUri ← os.var "HDFS_NN_URI"
  let hdfsRoot ← os.var "HDFS_ROOT"
  let bucketName ← os.var "BUCKET_NAME"
  some (ofRequired namenodeUri hdfsRoot bucketName)

/-- `Default for Config`. -/
def default : FullConfig :=
  ofRequired (Utf8.encode "hdfs://localhost:8020".toList) [slash] (Utf8.encode "hdfs".toList)

/-- `HashMap::extend`: later pairs win. -/
def extend (options : Str → Option Str) (pairs : List (Str × Str)) : Str → Option Str :=
  pairs.foldl (fun options pair => Function.update options pair.1 (some pair.2)) options

/-- The flags that override a setting. -/
def override (args : CliArgs) (config : FullConfig) : FullConfig where
  listenAddr := args.listenAddr.getD config.listenAddr
  namenodeUri := args.namenodeUri.getD config.namenodeUri
  hdfsRoot := args.hdfsRoot.getD config.hdfsRoot
  bucketName := args.bucketName.getD config.bucketName
  authSecret := args.authSecret.or config.authSecret
  hdfsUser := args.hdfsUser.or config.hdfsUser
  hdfsConfigDir := (args.hdfsConfigDir.map toStringLossy).or config.hdfsConfigDir
  hdfsOptions := extend config.hdfsOptions (args.hdfsOptions.getD [])
  maxConcurrentRequests := config.maxConcurrentRequests
  exposeUpstreamErrors := config.exposeUpstreamErrors
  cache := config.cache

/-- The cache switch of the environment, then those of the flags. -/
def switchCache (args : CliArgs) (enabled : Option Bool) (config : FullConfig) : FullConfig :=
  let enabled := enabled.getD config.cache.enabled
  let enabled := if args.noCache then false else enabled
  let enabled := if args.cache then true else enabled
  { config with cache := { config.cache with enabled } }

end FullConfig

/-- `env_bool`. -/
def envBool (quoted : Str → String) (os : Os) (name : String) : Except ConfigError (Option Bool) :=
  match os.env name with
  | none => .ok none
  | some raw =>
    let value := toAsciiLowercase (trim (toStringLossy raw))
    if value ∈ [Utf8.encode ['1'], Utf8.encode ['t', 'r', 'u', 'e'], Utf8.encode ['y', 'e', 's'],
      Utf8.encode ['o', 'n']] then .ok (some true)
    else if value ∈ [Utf8.encode ['0'], Utf8.encode ['f', 'a', 'l', 's', 'e'],
      Utf8.encode ['n', 'o'], Utf8.encode ['o', 'f', 'f']] then .ok (some false)
    else .error (.invalid
      (name ++ " must be one of 1/0, true/false, yes/no, on/off (got " ++ quoted value ++ ")"))

section Load

variable (checkBucketName : Str → Bool) (quoted : Str → String)
  (fromToml : Str → Except String FullConfig) (os : Os) (args : CliArgs)

/-- The configuration that the flags override: the file's, if one is given. -/
def FullConfig.base : Except ConfigError FullConfig :=
  match args.config with
  | some path => do
    let text ← (os.readToString path).mapError (.readFile path)
    (fromToml text).mapError .parseToml
  | none => .ok ((fromEnv os).getD default)

/-- `Config::load`. -/
def FullConfig.load : Except ConfigError FullConfig := do
  let config ← base fromToml os args
  let config := config.override args
  let enabled ← envBool quoted os "HDFS_S3_CACHE_ENABLED"
  let config := config.switchCache args enabled
  config.validate checkBucketName quoted
  pure config

end Load

/-! ## The required settings -/

/-- The settings that have no default. -/
inductive Required
  | namenodeUri
  | hdfsRoot
  | bucketName
  deriving DecidableEq, Repr

namespace Required

/-- Its value in a configuration. -/
def get (config : FullConfig) : Required → Str
  | .namenodeUri => config.namenodeUri
  | .hdfsRoot => config.hdfsRoot
  | .bucketName => config.bucketName

/-- Its flag. -/
def flag (args : CliArgs) : Required → Option Str
  | .namenodeUri => args.namenodeUri
  | .hdfsRoot => args.hdfsRoot
  | .bucketName => args.bucketName

/-- Its environment variable. -/
def envVar : Required → String
  | .namenodeUri => "HDFS_NN_URI"
  | .hdfsRoot => "HDFS_ROOT"
  | .bucketName => "BUCKET_NAME"

/-- The value that the operator supplies with the highest precedence: the flag, else the file when
one is given, else the environment variable. -/
def supplied (fromToml : Str → Except String FullConfig) (os : Os) (args : CliArgs)
    (setting : Required) : Option Str :=
  (setting.flag args).or <|
    match args.config with
    | some path =>
      match os.readToString path with
      | .ok text => (fromToml text).toOption.map setting.get
      | .error _ => none
    | none => os.var setting.envVar

end Required

namespace FullConfig

open Required

variable {checkBucketName : Str → Bool} {quoted : Str → String}
  {fromToml : Str → Except String FullConfig} {os : Os} {args : CliArgs} {config : FullConfig}

/-- Only the flags override a required setting. -/
@[simp] theorem get_override (setting : Required) :
    setting.get (config.override args) = (setting.flag args).getD (setting.get config) := by
  cases setting <;> rfl

/-- The cache switches leave it alone. -/
@[simp] theorem get_switchCache (setting : Required) (enabled : Option Bool) :
    setting.get (config.switchCache args enabled) = setting.get config := by
  cases setting <;> rfl

/-- Loading succeeds if there is a configuration to start with, the cache switch of the environment
is readable and the result is valid. -/
theorem load_eq_ok : load checkBucketName quoted fromToml os args = .ok config ↔
    ∃ start enabled, base fromToml os args = .ok start ∧
      envBool quoted os "HDFS_S3_CACHE_ENABLED" = .ok enabled ∧
      ((start.override args).switchCache args enabled).validate checkBucketName quoted = .ok () ∧
      (start.override args).switchCache args enabled = config := by
  unfold load
  cases base fromToml os args with
  | error e => simp [bind, Except.bind]
  | ok start =>
    cases envBool quoted os "HDFS_S3_CACHE_ENABLED" with
    | error e => simp [bind, Except.bind]
    | ok enabled =>
      cases hvalid : ((start.override args).switchCache args enabled).validate checkBucketName quoted
        <;> simp [bind, Except.bind, pure, Except.pure, hvalid]

/-- With a file, the value of a flag or of the file is supplied. -/
theorem supplied_of_file {path : Str} (hpath : args.config = some path)
    (hbase : base fromToml os args = .ok config) (setting : Required) :
    setting.supplied fromToml os args = some ((setting.flag args).getD (setting.get config)) := by
  have hfile : setting.supplied fromToml os args =
      (setting.flag args).or (some (setting.get config)) := by
    simp only [base, hpath] at hbase
    simp only [supplied, hpath]
    cases htext : os.readToString path with
    | error e =>
      rw [htext] at hbase
      contradiction
    | ok text =>
      rw [htext] at hbase
      change (fromToml text).mapError ConfigError.parseToml = .ok config at hbase
      cases hparsed : fromToml text with
      | error e =>
        rw [hparsed] at hbase
        contradiction
      | ok parsed =>
        rw [hparsed] at hbase
        obtain rfl := Except.ok.inj hbase
        simp only [hparsed]
        rfl
  rw [hfile]
  cases setting.flag args <;> rfl

/-- Without a file, the value of a flag or of the variable is. -/
theorem supplied_of_env (hnone : args.config = none) (setting : Required) :
    setting.supplied fromToml os args = (setting.flag args).or (os.var setting.envVar) := by
  simp only [supplied, hnone]

/-- The environment is complete. -/
theorem fromEnv_of_isSome (h : ∀ setting : Required, (os.var setting.envVar).isSome) :
    ∃ start, fromEnv os = some start ∧
      ∀ setting : Required, os.var setting.envVar = some (setting.get start) := by
  obtain ⟨namenodeUri, hnamenode⟩ := Option.isSome_iff_exists.mp (h .namenodeUri)
  obtain ⟨hdfsRoot, hroot⟩ := Option.isSome_iff_exists.mp (h .hdfsRoot)
  obtain ⟨bucketName, hbucket⟩ := Option.isSome_iff_exists.mp (h .bucketName)
  refine ⟨ofRequired namenodeUri hdfsRoot bucketName, ?_, fun setting => ?_⟩
  · simp only [envVar] at hnamenode hroot hbucket
    simp [fromEnv, hnamenode, hroot, hbucket]
  · cases setting <;> assumption

/-- One missing variable is enough to ignore the others. -/
theorem fromEnv_of_isNone {setting : Required} (h : os.var setting.envVar = none) :
    fromEnv os = none := by
  unfold fromEnv
  cases setting <;> simp only [envVar] at h
  · simp [h]
  · cases os.var "HDFS_NN_URI" <;> simp [h]
  · cases os.var "HDFS_NN_URI" <;> cases os.var "HDFS_ROOT" <;> simp [h]

/-- If the environment is complete, or no setting needs more of it than the built-in values, every
setting of the configuration without a file is supplied. -/
theorem supplied_of_noFile (hnone : args.config = none)
    (hcond : (∀ setting : Required, (os.var setting.envVar).isSome) ∨
      ∀ setting : Required, (setting.flag args).isSome ∨
        os.var setting.envVar = some (setting.get default)) (setting : Required) :
    setting.supplied fromToml os args =
      some ((setting.flag args).getD (setting.get ((fromEnv os).getD default))) := by
  have hstart : (setting.flag args).isSome ∨
      os.var setting.envVar = some (setting.get ((fromEnv os).getD default)) := by
    by_cases hall : ∀ setting : Required, (os.var setting.envVar).isSome
    · obtain ⟨start, henv, hvars⟩ := fromEnv_of_isSome hall
      rw [henv]
      exact Or.inr (hvars setting)
    · obtain ⟨missing, hmissing⟩ := not_forall.mp hall
      rw [fromEnv_of_isNone (Option.not_isSome_iff_eq_none.mp hmissing)]
      exact hcond.resolve_left hall setting
  rw [supplied_of_env hnone]
  cases hflag : setting.flag args with
  | some value => rfl
  | none =>
    rw [hflag] at hstart
    exact hstart.resolve_left (by simp)

/-- The cache switch matters to validation only for a cache without a budget. -/
theorem validate_switchCache (hbudget : config.cache.listingCapacityEntries ≠ 0)
    (enabled : Option Bool) :
    (config.switchCache args enabled).validate checkBucketName quoted =
      config.validate checkBucketName quoted := by
  simp [Settings.validate, switchCache, hbudget]

/-- A file, a complete environment, or flags and variables that agree with the built-in values are
enough for a loaded configuration to have every setting as supplied. -/
theorem supplied_of_load
    (henough : args.config.isSome ∨ (∀ setting : Required, (os.var setting.envVar).isSome) ∨
      ∀ setting : Required, (setting.flag args).isSome ∨
        os.var setting.envVar = some (setting.get default))
    (hload : load checkBucketName quoted fromToml os args = .ok config) (setting : Required) :
    setting.supplied fromToml os args = some (setting.get config) := by
  obtain ⟨start, enabled, hbase, -, -, rfl⟩ := load_eq_ok.mp hload
  rw [get_switchCache, get_override]
  cases hfile : args.config with
  | some path => exact supplied_of_file hfile hbase setting
  | none =>
    simp only [base, hfile] at hbase
    obtain rfl := Except.ok.inj hbase
    exact supplied_of_noFile hfile (henough.resolve_left (by simp [hfile])) setting

/-- Without a file and with an incomplete environment, the built-in configuration is loaded. -/
theorem load_of_incomplete (hfile : args.config = none)
    (hmissing : ¬ ∀ setting : Required, (os.var setting.envVar).isSome) :
    load checkBucketName quoted fromToml os args = .ok config ↔
      ∃ enabled, envBool quoted os "HDFS_S3_CACHE_ENABLED" = .ok enabled ∧
        (default.override args).validate checkBucketName quoted = .ok () ∧
        (default.override args).switchCache args enabled = config := by
  have hbudget : (default.override args).cache.listingCapacityEntries ≠ 0 :=
    Nat.succ_ne_zero 199999
  obtain ⟨missing, hmissing⟩ := not_forall.mp hmissing
  have hbase : base fromToml os args = .ok default := by
    simp only [base, hfile]
    rw [fromEnv_of_isNone (Option.not_isSome_iff_eq_none.mp hmissing)]
    rfl
  rw [load_eq_ok, hbase]
  constructor
  · rintro ⟨start, enabled, hstart, hswitch, hvalid, hconfig⟩
    obtain rfl := Except.ok.inj hstart
    rw [validate_switchCache hbudget] at hvalid
    exact ⟨enabled, hswitch, hvalid, hconfig⟩
  · rintro ⟨enabled, hswitch, hvalid, hconfig⟩
    rw [← validate_switchCache hbudget enabled] at hvalid
    exact ⟨default, enabled, rfl, hswitch, hvalid, hconfig⟩

/-- What does not fail has a result. -/
theorem exists_ok {ε α : Type} {x : Except ε α} (h : ∀ e, x ≠ .error e) : ∃ a, x = .ok a := by
  cases x with
  | error e => exact absurd rfl (h e)
  | ok a => exact ⟨a, rfl⟩

/-- A loaded configuration has every required setting as supplied, and a setting that nobody
supplies fails the loading, exactly if a file is given, or the environment is complete, or every
setting has a flag or a variable with the built-in value, or loading fails anyway: the cache switch
of the environment is not readable, or the built-in configuration with the flags is not valid. -/
theorem load_supplied_iff (checkBucketName : Str → Bool) (quoted : Str → String)
    (fromToml : Str → Except String FullConfig) (os : Os) (args : CliArgs) :
    ((∀ config, load checkBucketName quoted fromToml os args = .ok config →
        ∀ setting : Required, setting.supplied fromToml os args = some (setting.get config)) ∧
      (∀ setting : Required, setting.supplied fromToml os args = none →
        ∃ e, load checkBucketName quoted fromToml os args = .error e)) ↔
    args.config.isSome ∨
      (∀ setting : Required, (os.var setting.envVar).isSome) ∨
      (∀ setting : Required, (setting.flag args).isSome ∨
        os.var setting.envVar = some (setting.get default)) ∨
      (∃ e, envBool quoted os "HDFS_S3_CACHE_ENABLED" = .error e) ∨
      (∃ e, (default.override args).validate checkBucketName quoted = .error e) := by
  constructor
  · rintro ⟨hloaded, -⟩
    by_contra hno
    simp only [not_or, not_exists] at hno
    obtain ⟨hfile, hmissing, hbuiltin, hswitch, hvalid⟩ := hno
    have hfile : args.config = none := Option.not_isSome_iff_eq_none.mp hfile
    obtain ⟨setting, hsetting⟩ := not_forall.mp hbuiltin
    obtain ⟨hflag, hvar⟩ := not_or.mp hsetting
    obtain ⟨enabled, hswitch⟩ := exists_ok hswitch
    obtain ⟨⟨⟩, hvalid⟩ := exists_ok hvalid
    -- the built-in configuration is loaded, with a value that the variable does not have
    have hload := hloaded _ ((load_of_incomplete hfile hmissing).mpr ⟨enabled, hswitch, hvalid, rfl⟩)
      setting
    rw [supplied_of_env hfile, get_switchCache, get_override,
      Option.not_isSome_iff_eq_none.mp hflag] at hload
    exact hvar hload
  · intro hcond
    have hfirst : ∀ config, load checkBucketName quoted fromToml os args = .ok config →
        ∀ setting : Required, setting.supplied fromToml os args = some (setting.get config) := by
      intro config hload
      rcases hcond with hfile | hall | hbuiltin | ⟨e, hswitch⟩ | ⟨e, hinvalid⟩
      · exact supplied_of_load (.inl hfile) hload
      · exact supplied_of_load (.inr (.inl hall)) hload
      · exact supplied_of_load (.inr (.inr hbuiltin)) hload
      · obtain ⟨-, enabled, -, hok, -⟩ := load_eq_ok.mp hload
        rw [hswitch] at hok
        contradiction
      · by_contra hnot
        have hfew := mt (fun henough => supplied_of_load henough hload) hnot
        simp only [not_or, Option.not_isSome_iff_eq_none] at hfew
        obtain ⟨-, -, hvalid, -⟩ := (load_of_incomplete hfew.1 hfew.2.1).mp hload
        rw [hinvalid] at hvalid
        contradiction
    refine ⟨hfirst, fun setting hnone => ?_⟩
    cases hload : load checkBucketName quoted fromToml os args with
    | error e => exact ⟨e, rfl⟩
    | ok config => exact absurd (hfirst config hload setting) (by simp [hnone])

/-- With `HDFS_ROOT=/data` and only the flag for the NameNode, `/` is exposed. -/
theorem load_root_ignored :
    let os : Os := {
      env name := if name = "HDFS_ROOT" then some [0x2F, 0x64, 0x61, 0x74, 0x61] else none
      readToString _ := .error "no such file" }
    let args : CliArgs := { namenodeUri := some [0x68, 0x64, 0x66, 0x73, 0x3A, 0x2F, 0x2F, 0x6E] }
    ∃ config, load (fun _ => true) (fun _ => "") (fun _ => .error "") os args = .ok config ∧
      config.hdfsRoot = [slash] ∧
      Required.hdfsRoot.supplied (fun _ => .error "") os args = some [0x2F, 0x64, 0x61, 0x74, 0x61] ∧
      Required.bucketName.supplied (fun _ => .error "") os args = none := by
  refine ⟨_, rfl, rfl, ?_, rfl⟩
  decide +kernel

end FullConfig

end HdfsS3Gateway
