import HdfsS3Gateway.S3.OwnCommands
import HdfsS3Gateway.S3.Validators

/-!
# Errors of HDFS

An error of HDFS is either passed on or one that the gateway knows what to do with: a listing skips a
directory that has vanished, and one below its start that it may not read. What a request fails with
is read off its own commands: it is the one failure that HDFS told this request, or an error that the
gateway makes itself. No failure is swallowed, and none is remembered for a later request.
-/

namespace HdfsS3Gateway

open Interaction

/-! ## Failures that a page is told -/

/-- The failure in a reply about a directory below the start. -/
def Exchange.failed (e : Exchange) : Option HdfsError :=
  match e.2 with
  | .error err => if SortedListing.skippable err then none else some err
  | .ok _ => none

/-- The failure in a reply about the start. -/
def Exchange.startFailed (e : Exchange) : Option HdfsError :=
  match e.2 with
  | .error (.fileNotFound _) => none
  | .error err => some err
  | .ok _ => none

/-- The failures in what a page was told. -/
def toldFailures : List Exchange → List HdfsError
  | [] => []
  | e :: rest => e.startFailed.toList ++ rest.filterMap Exchange.failed

theorem toldFailures_append {log : List Exchange} (log' : List Exchange) (h : log ≠ []) :
    toldFailures (log ++ log') = toldFailures log ++ log'.filterMap Exchange.failed := by
  cases log with
  | nil => contradiction
  | cons e rest => simp [toldFailures]

/-- The failure that a part of a listing ends with. -/
def resultFailures {α : Type} : Except ListError α → List HdfsError
  | .error (.upstream err) => [err]
  | _ => []

theorem resultFailures_map {α β : Type} (f : α → β) (r : Except ListError α) :
    resultFailures (r.map f) = resultFailures r := by
  cases r with
  | error err => cases err <;> rfl
  | ok a => rfl

namespace SortedListing

variable {s s' fresh : SortedListing} {log : List Exchange}

/-- The failure that a turn ends with. -/
def Turn.failures : Turn → List HdfsError
  | .fail err => [err]
  | _ => []

/-- A turn ends with the failure that it is told. -/
theorem turn_failures {t : Turn} (h : s.turn.Runs log (t, s')) :
    log.filterMap Exchange.failed = t.failures ∧ s'.startSeeded = s.startSeeded := by
  obtain ⟨lister, hturned, hlister⟩ := turn_runs h
  refine ⟨?_, (turned_frame hturned).2.2.2.1⟩
  obtain ⟨visited, hvisited⟩ : ∃ visited, log.map Sigma.fst = visited := ⟨_, rfl⟩
  rw [log_eq_of_fst hvisited hlister]
  rw [hvisited] at hturned
  cases hturned with
  | stop | skip | emit => rfl
  | opened _ _ _ hlist => simp [Exchange.failed, hlist, Turn.failures]
  | passed _ _ _ hlist hskip => simp [Exchange.failed, hlist, hskip, Turn.failures]
  | failed _ _ _ hlist hfail => simp [Exchange.failed, hlist, hfail, Turn.failures]

/-- So does a pull of a seeded engine. -/
theorem nextLoop_failures {fuel : ℕ} {result : Except ListError (Option ListEntry)}
    (h : (nextLoop fuel s).Runs log (result, s')) :
    log.filterMap Exchange.failed = resultFailures result ∧ s'.startSeeded = s.startSeeded := by
  induction fuel generalizing log s with
  | zero =>
    obtain ⟨rfl, heq⟩ := Prog.runs_ret.mp h
    obtain ⟨rfl, rfl⟩ := Prod.mk.inj heq
    exact ⟨rfl, rfl⟩
  | succ fuel ih =>
    rw [nextLoop, Prog.runs_bind] at h
    obtain ⟨first, second, ⟨t, mid⟩, rfl, hturn, hrest⟩ := h
    obtain ⟨hfirst, hseeded⟩ := turn_failures hturn
    rw [List.filterMap_append, hfirst]
    cases t with
    | again =>
      obtain ⟨hsecond, hmid⟩ := ih hrest
      exact ⟨hsecond, hmid.trans hseeded⟩
    | emit | stop | fail =>
      obtain ⟨rfl, heq⟩ := Prog.runs_ret.mp hrest
      obtain ⟨rfl, rfl⟩ := Prod.mk.inj heq
      exact ⟨rfl, hseeded⟩

/-- Seeding fails with what it is told about the start, unless that is missing. -/
theorem seed_failures {result : Except HdfsError SortedListing} (h : fresh.seed.Runs log result) :
    log ≠ [] ∧ toldFailures log = resultFailures (result.mapError ListError.upstream) ∧
      ∀ s, result = .ok s → s.startSeeded = true := by
  unfold seed at h
  simp only [Prog.perform_bind] at h
  obtain ⟨reply, rest, rfl, hreply⟩ := Prog.runs_call.mp h
  cases reply with
  | ok listing =>
    obtain ⟨rfl, rfl⟩ := Prog.runs_ret.mp hreply
    refine ⟨List.cons_ne_nil _ _, rfl, fun s hs => ?_⟩
    rw [← Except.ok.inj hs]
    rfl
  | error err =>
    cases err with
    | fileNotFound path =>
      obtain ⟨rfl, rfl⟩ := Prog.runs_ret.mp hreply
      refine ⟨List.cons_ne_nil _ _, rfl, fun s hs => ?_⟩
      rw [← Except.ok.inj hs]
    | _ =>
      obtain ⟨rfl, rfl⟩ := Prog.runs_ret.mp hreply
      exact ⟨List.cons_ne_nil _ _, rfl, by simp⟩

/-- A pull of a seeded engine leaves it seeded. -/
theorem nextEntry_failures (hseeded : s.startSeeded = true) {fuel : ℕ}
    {result : Except ListError (Option ListEntry)} (h : (nextEntry fuel s).Runs log (result, s')) :
    log.filterMap Exchange.failed = resultFailures result ∧ s'.startSeeded = true := by
  rw [nextEntry, if_pos hseeded] at h
  split at h
  · obtain ⟨rfl, heq⟩ := Prog.runs_ret.mp h
    obtain ⟨rfl, rfl⟩ := Prod.mk.inj heq
    exact ⟨rfl, hseeded⟩
  · obtain ⟨hfailed, hkept⟩ := nextLoop_failures h
    exact ⟨hfailed, hkept.trans hseeded⟩

/-- The first pull seeds the engine, or fails with what it is told about the start. -/
theorem nextEntry_starts (hfresh : fresh.IsFresh) {fuel : ℕ}
    {result : Except ListError (Option ListEntry)}
    (h : (nextEntry fuel fresh).Runs log (result, s')) :
    log ≠ [] ∧ toldFailures log = resultFailures result ∧
      (∀ entry, result = .ok entry → s'.startSeeded = true) := by
  rw [nextEntry, if_neg (by simp [hfresh.alive]), if_neg (by simp [hfresh.unseeded]),
    Prog.runs_bind] at h
  obtain ⟨first, second, seeded, rfl, hseed, hrest⟩ := h
  obtain ⟨hne, hfirst, hmid⟩ := seed_failures hseed
  refine ⟨List.append_ne_nil_of_left_ne_nil hne _, ?_⟩
  rw [toldFailures_append second hne, hfirst]
  cases seeded with
  | error err =>
    obtain ⟨rfl, heq⟩ := Prog.runs_ret.mp hrest
    obtain ⟨rfl, -⟩ := Prod.mk.inj heq
    exact ⟨rfl, by simp⟩
  | ok mid =>
    have hmid := hmid mid rfl
    simp only [] at hrest
    split at hrest
    · obtain ⟨rfl, heq⟩ := Prog.runs_ret.mp hrest
      obtain ⟨rfl, rfl⟩ := Prod.mk.inj heq
      exact ⟨rfl, fun _ _ => hmid⟩
    · obtain ⟨hsecond, hkept⟩ := nextLoop_failures hrest
      exact ⟨hsecond, fun _ _ => hkept.trans hmid⟩

/-- The rest of a page ends with the failure that it is told. -/
theorem collectLoop_failures (hseeded : s.startSeeded = true) {fuel rounds : ℕ} {limit : Option ℕ}
    {page : List ListEntry} {result : Except ListError (List ListEntry × Bool)}
    (h : (collectLoop fuel limit rounds s page).Runs log result) :
    log.filterMap Exchange.failed = resultFailures result := by
  induction rounds generalizing log s page with
  | zero =>
    obtain ⟨rfl, rfl⟩ := Prog.runs_ret.mp h
    rfl
  | succ rounds ih =>
    rw [collectLoop] at h
    split at h
    all_goals
      obtain ⟨first, second, ⟨pulled, mid⟩, rfl, hnext, hrest⟩ := Prog.runs_bind.mp h
      obtain ⟨hfirst, hmid⟩ := nextEntry_failures hseeded hnext
      rw [List.filterMap_append, hfirst]
    · obtain ⟨rfl, rfl⟩ := Prog.runs_ret.mp hrest
      rw [resultFailures_map, List.filterMap_nil, List.append_nil]
    · cases pulled with
      | error err =>
        obtain ⟨rfl, rfl⟩ := Prog.runs_ret.mp hrest
        cases err <;> rfl
      | ok entry =>
        cases entry with
        | none =>
          obtain ⟨rfl, rfl⟩ := Prog.runs_ret.mp hrest
          rfl
        | some e => exact ih hmid hrest

/-- A page ends with the failure that it is told. -/
theorem collectPage_failures (hfresh : fresh.IsFresh) {fuel : ℕ} {limit : Option ℕ}
    {result : Except ListError (List ListEntry × Bool)}
    (h : (fresh.collectPage fuel limit).Runs log result) :
    toldFailures log = resultFailures result := by
  unfold collectPage at h
  split at h
  · obtain ⟨rfl, rfl⟩ := Prog.runs_ret.mp h
    rfl
  · cases fuel with
    | zero =>
      obtain ⟨rfl, rfl⟩ := Prog.runs_ret.mp h
      rfl
    | succ rounds =>
      rename_i hlimit
      rw [collectLoop, if_neg (by simpa using Ne.symm hlimit)] at h
      obtain ⟨first, second, ⟨pulled, mid⟩, rfl, hnext, hrest⟩ := Prog.runs_bind.mp h
      obtain ⟨hne, hfirst, hmid⟩ := nextEntry_starts hfresh hnext
      rw [toldFailures_append second hne, hfirst]
      cases pulled with
      | error err =>
        obtain ⟨rfl, rfl⟩ := Prog.runs_ret.mp hrest
        cases err <;> rfl
      | ok entry =>
        cases entry with
        | none =>
          obtain ⟨rfl, rfl⟩ := Prog.runs_ret.mp hrest
          rfl
        | some e => exact collectLoop_failures (hmid _ rfl) hrest

end SortedListing

/-! ## Failures that a request is told -/

/-- The failure in the response to a command. -/
def failureOf : Sigma Cmd.Resp → Option HdfsError
  | ⟨.upstream (.getFileInfo _), .error err⟩ => some err
  | ⟨.upstream (.read _ _), .error err⟩ => some err
  | ⟨.upstream (.listStatus path), .error err⟩ => Exchange.failed ⟨path, .error err⟩
  | _ => none

/-- The denial in the first response of HDFS to a listing, which is about its start. -/
def deniedStart : List (Sigma Cmd.Resp) → Option HdfsError
  | ⟨.cacheGet .dirs _, none⟩ :: ⟨.upstream (.listStatus _), .error err⟩ :: _ =>
    if isDirDenied err then some err else none
  | _ => none

/-- The failures in what a request was told. -/
def failures (log : List (Sigma Cmd.Resp)) : List HdfsError :=
  (deniedStart log).toList ++ log.filterMap failureOf

/-- The error that a response is. -/
def Response.error? : Response → Option S3Error
  | .headObject (.error err) => some err
  | .getObject (.error err) => some err
  | .listObjectsV2 (.error (.response err)) => some err
  | _ => none

/-- The errors that the gateway makes itself. -/
def ownErrors : S3Request → List S3Error
  | .headObject _ => [{ code := .noSuchBucket }, { code := .noSuchKey },
      { code := .preconditionFailed }, { code := .notModified }]
  | .getObject _ _ => [{ code := .noSuchBucket }, { code := .noSuchKey },
      { code := .preconditionFailed }, { code := .notModified }, { code := .invalidRange },
      { code := .internalError }]
  | .listObjectsV2 _ _ => [{ code := .noSuchBucket },
      { code := .invalidArgument, message := some "max-keys must not be negative" },
      { code := .invalidToken }]

namespace HdfsGateway

variable {self : HdfsGateway} {α β : Type} {log : List (Sigma Cmd.Resp)}

/-- Commands that list nothing were denied no start. -/
theorem deniedStart_eq_none (h : listedDirs log = []) : deniedStart log = none := by
  unfold deniedStart
  split
  · simp [listedDirs] at h
  · rfl

/-- What part of a request fails with: the one failure that it is told, or an error of its own. -/
def PassesOn (self : HdfsGateway) (told : List HdfsError) (own : List S3Error)
    (r : Except S3Error α) : Prop :=
  (∃ err, told = [err] ∧ r = .error (self.mapError err)) ∨
    (told = [] ∧ ∀ e, r = .error e → e ∈ own)

/-- Two parts in sequence, of which the second is told nothing after a failure of the first. -/
theorem PassesOn.bind {told told' : List HdfsError} {own own' : List S3Error}
    {r : Except S3Error α} {r' : Except S3Error β} (h : self.PassesOn told own r)
    (herror : ∀ e, r = .error e → told' = [] ∧ r' = .error e)
    (hok : ∀ a, r = .ok a → self.PassesOn told' own' r') (hsub : own ⊆ own') :
    self.PassesOn (told ++ told') own' r' := by
  rcases h with ⟨err, rfl, rfl⟩ | ⟨rfl, hown⟩
  · obtain ⟨rfl, rfl⟩ := herror _ rfl
    exact .inl ⟨err, rfl, rfl⟩
  · cases r with
    | error e =>
      obtain ⟨rfl, rfl⟩ := herror e rfl
      refine .inr ⟨rfl, fun e' he' => ?_⟩
      obtain rfl := Except.error.inj he'
      exact hsub (hown e rfl)
    | ok a => exact hok a rfl

/-- The metadata of a path fails with what HDFS says, or with a missing key that is remembered. -/
theorem fileMeta_passesOn {path : Str} {r : Except S3Error FileMeta}
    (h : (self.fileMeta path).Runs log r) :
    self.PassesOn (log.filterMap failureOf) [{ code := .noSuchKey }] r := by
  obtain ⟨cached, rest, rfl, hcached⟩ := runs_cacheGet.mp h
  cases cached with
  | some found =>
    obtain ⟨rfl, rfl⟩ := Prog.runs_ret.mp hcached
    exact .inr ⟨rfl, by simp⟩
  | none =>
    obtain ⟨missing, rest, rfl, hmissing⟩ := runs_cacheGet.mp hcached
    cases missing with
    | some known =>
      obtain ⟨rfl, rfl⟩ := Prog.runs_ret.mp hmissing
      exact .inr ⟨rfl, by simp⟩
    | none =>
      obtain ⟨reply, rest, rfl, hreply⟩ := runs_callUpstream.mp hmissing
      cases reply with
      | ok status =>
        obtain ⟨rest, rfl, hdone⟩ := runs_cacheInsert.mp hreply
        obtain ⟨rfl, rfl⟩ := Prog.runs_ret.mp hdone
        exact .inr ⟨rfl, by simp⟩
      | error err =>
        left
        refine ⟨err, ?_⟩
        cases err with
        | fileNotFound =>
          obtain ⟨rest, rfl, hdone⟩ := runs_cacheInsert.mp hreply
          obtain ⟨rfl, rfl⟩ := Prog.runs_ret.mp hdone
          exact ⟨rfl, rfl⟩
        | _ =>
          obtain ⟨rfl, rfl⟩ := Prog.runs_ret.mp hreply
          exact ⟨rfl, rfl⟩

/-- Opening a path fails with what HDFS says. -/
theorem readFile_passesOn {path : Str} {status : FileMeta} {r : Except S3Error FileReader}
    (h : (self.readFile path status).Runs log r) :
    self.PassesOn (log.filterMap failureOf) [] r := by
  obtain ⟨reply, rest, rfl, hreply⟩ := runs_callUpstream.mp h
  cases reply with
  | ok reader =>
    obtain ⟨rest, rfl, hdone⟩ := runs_cacheInsert.mp hreply
    obtain ⟨rfl, rfl⟩ := Prog.runs_ret.mp hdone
    exact .inr ⟨rfl, by simp⟩
  | error err =>
    obtain ⟨rest, rfl, hdone⟩ := runs_cacheRemove.mp hreply
    obtain ⟨rfl, rfl⟩ := Prog.runs_ret.mp hdone
    exact .inl ⟨err, rfl, rfl⟩

/-- So does reusing a reader. -/
theorem openReader_passesOn {path : Str} {status : FileMeta} {r : Except S3Error FileReader}
    (h : (self.openReader path status).Runs log r) :
    self.PassesOn (log.filterMap failureOf) [] r := by
  obtain ⟨cached, rest, rfl, hcached⟩ := runs_cacheGet.mp h
  cases cached with
  | some found =>
    simp only [] at hcached
    split at hcached
    · obtain ⟨rfl, rfl⟩ := Prog.runs_ret.mp hcached
      exact .inr ⟨rfl, by simp⟩
    · obtain ⟨rest, rfl, hread⟩ := runs_cacheRemove.mp hcached
      have hpass := readFile_passesOn hread
      exact hpass
  | none =>
    have hpass := readFile_passesOn hcached
    exact hpass

/-- A reader that is too short is an error of the gateway. -/
theorem openObject_passesOn {path : Str} {status : FileMeta} {prepared : Prepared}
    {r : Except S3Error (Str × GetObject)} (h : (self.openObject path status prepared).Runs log r) :
    self.PassesOn (log.filterMap failureOf) [{ code := .internalError }] r := by
  obtain ⟨first, second, opened, rfl, hopened, hrest⟩ := Prog.runs_bind.mp h
  rw [List.filterMap_append]
  refine (openReader_passesOn hopened).bind (fun e he => ?_) (fun reader hreader => ?_) (by simp)
  · subst he
    obtain ⟨rfl, rfl⟩ := Prog.runs_ret.mp hrest
    exact ⟨rfl, rfl⟩
  · subst hreader
    simp only [] at hrest
    split at hrest
    · obtain ⟨rest, rfl, hblocks⟩ := runs_cacheRemove.mp hrest
      obtain ⟨rest, rfl, hmetadata⟩ := runs_cacheRemove.mp hblocks
      obtain ⟨rfl, rfl⟩ := Prog.runs_ret.mp hmetadata
      exact .inr ⟨rfl, by simp⟩
    · obtain ⟨rfl, rfl⟩ := Prog.runs_ret.mp hrest
      exact .inr ⟨rfl, by simp⟩

/-- The errors before HDFS is asked. -/
theorem resolvePath_error {bucket key : Str} {e : S3Error} (h : self.resolvePath bucket key = .error e) :
    e = { code := .noSuchBucket } ∨ e = { code := .noSuchKey } := by
  unfold resolvePath at h
  split at h
  · exact .inl (Except.error.inj h).symm
  · split at h
    · exact .inr (Except.error.inj h).symm
    · contradiction

/-- The errors of the conditional headers. -/
theorem checkConditions_error {conditions : Conditions} {etag : ETag} {lastModified : Timestamp}
    {e : S3Error} (h : self.checkConditions conditions etag lastModified = .error e) :
    e = { code := .preconditionFailed } ∨ e = { code := .notModified } := by
  rw [checkConditions_eq] at h
  split at h
  · exact .inl (Except.error.inj h).symm
  · split at h
    · exact .inr (Except.error.inj h).symm
    · contradiction

/-- The errors of a HEAD once its metadata is known. -/
theorem headResponse_error {input : HeadObjectInput} {path : Str} {status : FileMeta} {e : S3Error}
    (h : self.headResponse input path status = .error e) :
    e = { code := .noSuchKey } ∨ e = { code := .preconditionFailed } ∨ e = { code := .notModified } := by
  unfold headResponse at h
  split at h
  · exact .inl (Except.error.inj h).symm
  · rcases except_bind_eq_error.mp h with h | ⟨_, -, h⟩
    · exact .inr (checkConditions_error h)
    · contradiction

/-- The error of a window. -/
theorem resolveWindow_error {fileLen : UInt64} {range : Option Range} {e : S3Error}
    (h : (resolveWindow fileLen range).value = .error e) : e = { code := .invalidRange } := by
  cases range with
  | none => contradiction
  | some range =>
    unfold resolveWindow at h
    simp only [Overflow.Tracked.value_bind] at h
    split at h
    · exact (Except.error.inj h).symm
    · contradiction

/-- The errors of a GET between its metadata and its reader. -/
theorem prepare_error {input : GetObjectInput} {path : Str} {status : FileMeta} {e : S3Error}
    (h : self.prepare input path status = .error e) :
    e = { code := .noSuchKey } ∨ e = { code := .preconditionFailed } ∨
      e = { code := .notModified } ∨ e = { code := .invalidRange } := by
  unfold prepare at h
  split at h
  · exact .inl (Except.error.inj h).symm
  · rcases except_bind_eq_error.mp h with h | ⟨_, -, h⟩
    · exact .inr ((checkConditions_error h).imp_right .inl)
    · refine .inr (.inr (.inr ?_))
      rcases except_bind_eq_error.mp h with h | ⟨_, -, h⟩
      · exact resolveWindow_error h
      · split at h
        · contradiction
        · exact (Except.error.inj h).symm

/-- A HEAD fails with what HDFS says, or with an error of its own. -/
theorem headObject_passesOn {input : HeadObjectInput} {r : Except S3Error HeadObjectOutput}
    (h : (self.headObject input).Runs log r) :
    self.PassesOn (log.filterMap failureOf) (ownErrors (.headObject input)) r := by
  unfold headObject at h
  cases hpath : self.resolvePath input.bucket input.key with
  | error e =>
    rw [hpath] at h
    obtain ⟨rfl, rfl⟩ := Prog.runs_ret.mp h
    refine .inr ⟨rfl, fun e' he' => ?_⟩
    obtain rfl := Except.error.inj he'
    rcases resolvePath_error hpath with rfl | rfl <;> simp [ownErrors]
  | ok path =>
    rw [hpath] at h
    obtain ⟨first, second, found, rfl, hfound, hrest⟩ := Prog.runs_bind.mp h
    rw [List.filterMap_append]
    refine (fileMeta_passesOn hfound).bind (fun e he => ?_) (fun status hstatus => ?_)
      (by simp [ownErrors])
    · subst he
      obtain ⟨rfl, rfl⟩ := Prog.runs_ret.mp hrest
      exact ⟨rfl, rfl⟩
    · subst hstatus
      obtain ⟨rfl, rfl⟩ := Prog.runs_ret.mp hrest
      refine .inr ⟨rfl, fun e he => ?_⟩
      rcases headResponse_error he with rfl | rfl | rfl <;> simp [ownErrors]

/-- So does a GET, up to the headers. -/
theorem getObject_passesOn {input : GetObjectInput} {polls : ℕ} {r : Except S3Error (Str × GetObject)}
    (h : (self.getObject input).Runs log r) :
    self.PassesOn (log.filterMap failureOf) (ownErrors (.getObject input polls)) r := by
  unfold getObject at h
  cases hpath : self.resolvePath input.bucket input.key with
  | error e =>
    rw [hpath] at h
    obtain ⟨rfl, rfl⟩ := Prog.runs_ret.mp h
    refine .inr ⟨rfl, fun e' he' => ?_⟩
    obtain rfl := Except.error.inj he'
    rcases resolvePath_error hpath with rfl | rfl <;> simp [ownErrors]
  | ok path =>
    rw [hpath] at h
    obtain ⟨first, second, found, rfl, hfound, hrest⟩ := Prog.runs_bind.mp h
    rw [List.filterMap_append]
    refine (fileMeta_passesOn hfound).bind (fun e he => ?_) (fun status hstatus => ?_)
      (by simp [ownErrors])
    · subst he
      obtain ⟨rfl, rfl⟩ := Prog.runs_ret.mp hrest
      exact ⟨rfl, rfl⟩
    · subst hstatus
      simp only [] at hrest
      cases hprepared : self.prepare input path status with
      | error e =>
        rw [hprepared] at hrest
        obtain ⟨rfl, rfl⟩ := Prog.runs_ret.mp hrest
        refine .inr ⟨rfl, fun e' he' => ?_⟩
        obtain rfl := Except.error.inj he'
        rcases prepare_error hprepared with rfl | rfl | rfl | rfl <;> simp [ownErrors]
      | ok prepared =>
        rw [hprepared] at hrest
        rcases openObject_passesOn hrest with hfailed | ⟨htold, hown⟩
        · exact .inl hfailed
        · refine .inr ⟨htold, fun e he => ?_⟩
          rw [List.mem_singleton.mp (hown e he)]
          simp [ownErrors]

/-- Polling a body tells no failure: the headers are out, so it ends the body. -/
theorem failures_drain {path : Str} {object : GetObject} {polls : ℕ} {stream : BytesStream}
    {body : List (Chunk GetBodyError) × Bool}
    (h : (BytesStream.drain (pollBody path object) polls stream).Runs log body) :
    log.filterMap failureOf = [] := by
  have hpolls := h.always (always_drain (Q := fun u => ∃ reader start len position,
    u = .pollRange reader start len position) (fun _ => ⟨_, _, _, _, rfl⟩) polls stream)
  apply List.filterMap_eq_nil_iff.mpr
  rintro ⟨c, r⟩ he
  have hc := hpolls _ he
  cases c with
  | upstream u =>
    obtain ⟨reader, start, len, position, rfl⟩ := hc
    rfl
  | cacheGet | cacheInsert | cacheRemove => rfl

/-- A GET fails with what HDFS says, or with an error of its own. -/
theorem serveGet_passesOn {input : GetObjectInput} {polls : ℕ}
    {r : Except S3Error (GetObject × Body)} (h : (self.serveGet input polls).Runs log r) :
    self.PassesOn (log.filterMap failureOf) (ownErrors (.getObject input polls)) r := by
  obtain ⟨first, second, found, rfl, hfound, hrest⟩ := Prog.runs_bind.mp h
  rw [List.filterMap_append]
  refine (getObject_passesOn hfound).bind (fun e he => ?_) (fun opened hopened => ?_)
    (List.Subset.refl _)
  · subst he
    obtain ⟨rfl, rfl⟩ := Prog.runs_ret.mp hrest
    exact ⟨rfl, rfl⟩
  · subst hopened
    obtain ⟨polled, rest, body, rfl, hbody, hdone⟩ := Prog.runs_bind.mp hrest
    obtain ⟨rfl, rfl⟩ := Prog.runs_ret.mp hdone
    rw [List.append_nil, failures_drain hbody]
    exact .inr ⟨rfl, by simp⟩

/-! ## Listings -/

/-- The start may not be read, or it fails as a directory below it would. -/
theorem startFailed_eq (path : Str) (err : HdfsError) :
    (Exchange.startFailed ⟨path, .error err⟩).toList =
      (if isDirDenied err then some err else none).toList ++
        (Exchange.failed ⟨path, .error err⟩).toList := by
  cases err with
  | rpcError exception | fatalRPCError exception =>
    cases hdenied : isAccessDenied exception <;>
      simp [Exchange.startFailed, Exchange.failed, SortedListing.skippable, isDirDenied, hdenied]
  | _ => simp [Exchange.startFailed, Exchange.failed, SortedListing.skippable, isDirDenied]

theorem filterMap_cons_eq (f : α → Option β) (a : α) (l : List α) :
    (a :: l).filterMap f = (f a).toList ++ l.filterMap f := by
  cases hf : f a <;> simp [hf]

/-- What a page was told is what HDFS told its request. -/
theorem handled_failures {told : List Exchange} (h : Prog.Handled self.listDir told log) :
    log.filterMap failureOf = told.filterMap Exchange.failed ∧ failures log = toldFailures told := by
  induction h with
  | nil => exact ⟨rfl, rfl⟩
  | @cons dir r own rest told hown _ ih =>
    obtain ⟨hrest, -⟩ := ih
    rcases listDir_runs hown with ⟨listing, rfl, rfl⟩ | ⟨reply, more, rfl, hmore, rfl⟩
    · exact ⟨hrest, hrest⟩
    · have hafter : (more ++ rest).filterMap failureOf = told.filterMap Exchange.failed := by
        rw [List.filterMap_append, hrest]
        rcases hmore with rfl | ⟨listing, weight, rfl⟩ <;> rfl
      cases reply with
      | ok statuses => exact ⟨hafter, hafter⟩
      | error err =>
        have hown : ((⟨.cacheGet .dirs dir, none⟩ :: ⟨.upstream (.listStatus dir), .error err⟩ ::
            more : List (Sigma Cmd.Resp)) ++ rest).filterMap failureOf =
            (Exchange.failed ⟨dir, .error err⟩).toList ++ told.filterMap Exchange.failed := by
          rw [← hafter]
          exact filterMap_cons_eq failureOf ⟨.upstream (.listStatus dir), .error err⟩ (more ++ rest)
        refine ⟨hown.trans (filterMap_cons_eq Exchange.failed ⟨dir, .error err⟩ told).symm, ?_⟩
        rw [failures, hown, ← List.append_assoc]
        exact congrArg (· ++ _) (startFailed_eq dir err).symm

/-- A listing fails with the one failure that it is told, or without any error response. -/
def ListPassesOn (self : HdfsGateway) (told : List HdfsError) (r : Except ListFailure α) : Prop :=
  (∃ err, told = [err] ∧ r = .error (.response (self.mapError err))) ∨
    (told = [] ∧ ∀ e, r ≠ .error (.response e))

theorem ListPassesOn.map {told : List HdfsError} {r : Except ListFailure α} (f : α → β)
    (h : self.ListPassesOn told r) : self.ListPassesOn told (r.map f) := by
  rcases h with ⟨err, htold, rfl⟩ | ⟨htold, hr⟩
  · exact .inl ⟨err, htold, rfl⟩
  · refine .inr ⟨htold, fun e => ?_⟩
    cases r with
    | error failed =>
      intro heq
      exact hr e (congrArg Except.error (Except.error.inj heq))
    | ok a => exact fun heq => by contradiction

/-- The entries of a recursive listing fail with what HDFS says. -/
theorem collectFlat_passesOn {fuel : ℕ} {args : ListArgs} {limit : Option ℕ}
    {r : Except ListFailure (List ListEntry × Bool)}
    (h : (self.collectFlat fuel args limit).Runs log r) : self.ListPassesOn (failures log) r := by
  unfold collectFlat at h
  cases hstart : self.mapper.listStart args.pre with
  | none =>
    rw [hstart] at h
    obtain ⟨rfl, rfl⟩ := Prog.runs_ret.mp h
    exact .inr ⟨rfl, by simp⟩
  | some path =>
    rw [hstart] at h
    obtain ⟨own, rest, page, rfl, hpage, hrest⟩ := Prog.runs_bind.mp h
    obtain ⟨told, hruns, hhandled⟩ := hpage.handled
    have hfailed := SortedListing.collectPage_failures
      (SortedListing.isFresh_new path args.pre args.startAfter self.mapper) hruns
    rw [← (handled_failures hhandled).2] at hfailed
    cases page with
    | ok page =>
      obtain ⟨rfl, rfl⟩ := Prog.runs_ret.mp hrest
      exact .inr ⟨by rwa [List.append_nil], by simp⟩
    | error failed =>
      cases failed with
      | outOfFuel =>
        obtain ⟨rfl, rfl⟩ := Prog.runs_ret.mp hrest
        exact .inr ⟨by rwa [List.append_nil], by simp⟩
      | upstream err =>
        obtain ⟨rfl, rfl⟩ := Prog.runs_ret.mp hrest
        exact .inl ⟨err, by rwa [List.append_nil], rfl⟩

/-- The one listing for the delimiter `/` is told what its start fails with. -/
theorem listStartDir_failures {args : ListArgs} {r : Except HdfsError DirListing}
    (h : (self.listStartDir args).Runs log r) :
    failures log = (Exchange.startFailed ⟨[], r⟩).toList := by
  unfold listStartDir at h
  split at h
  · obtain ⟨rfl, rfl⟩ := Prog.runs_ret.mp h
    rfl
  · have hhandled := Prog.Handled.cons h .nil
    rw [List.append_nil] at hhandled
    rw [(handled_failures hhandled).2]
    exact List.append_nil _

/-- So does a page, whatever its delimiter. -/
theorem listPage_passesOn {fuel : ℕ} {args : ListArgs} {r : Except ListFailure Page}
    (h : (self.listPage fuel args).Runs log r) : self.ListPassesOn (failures log) r := by
  unfold listPage at h
  split_ifs at h with hslash hsome
  · obtain ⟨own, rest, reply, rfl, hlist, hrest⟩ := Prog.runs_bind.mp h
    have htold := listStartDir_failures hlist
    cases reply with
    | ok listing =>
      obtain ⟨rfl, rfl⟩ := Prog.runs_ret.mp hrest
      exact .inr ⟨by rwa [List.append_nil], by simp⟩
    | error err =>
      cases err with
      | fileNotFound path =>
        obtain ⟨rfl, rfl⟩ := Prog.runs_ret.mp hrest
        exact .inr ⟨by rwa [List.append_nil], by simp⟩
      | _ =>
        obtain ⟨rfl, rfl⟩ := Prog.runs_ret.mp hrest
        exact .inl ⟨_, by rwa [List.append_nil], rfl⟩
  all_goals
    obtain ⟨own, rest, collected, rfl, hcollected, hrest⟩ := Prog.runs_bind.mp h
    obtain ⟨rfl, rfl⟩ := Prog.runs_ret.mp hrest
    rw [List.append_nil]
    apply ListPassesOn.map
  · unfold collectAll at hcollected
    split_ifs at hcollected
    · obtain ⟨rfl, rfl⟩ := Prog.runs_ret.mp hcollected
      exact .inr ⟨rfl, by simp⟩
    · exact collectFlat_passesOn hcollected
  · exact collectFlat_passesOn hcollected

/-- The errors of the arguments of a listing. -/
theorem listArgs_error {input : ListObjectsV2Input} {fuel : ℕ} {e : S3Error}
    (h : self.listArgs input = .error e) : e ∈ ownErrors (.listObjectsV2 input fuel) := by
  unfold listArgs at h
  split at h
  · obtain rfl := Except.error.inj h
    simp [ownErrors]
  · rcases except_bind_eq_error.mp h with h | ⟨_, -, h⟩
    · unfold maxKeysOf at h
      split at h
      · contradiction
      · split at h
        · obtain rfl := Except.error.inj h
          simp [ownErrors]
        · contradiction
    · rcases except_bind_eq_error.mp h with h | ⟨_, -, h⟩
      · unfold startAfterOf at h
        split at h
        · split at h
          · contradiction
          · obtain rfl := Except.error.inj h
            simp [ownErrors]
        · contradiction
      · contradiction

/-! ## Requests -/

variable {H : Type} {hdfs : Hdfs H} {now : ℕ} {start : H}
  {s : Pool Cmd Cmd.Resp (World self.crates H) S3Request Response} {tid : ℕ} {req : S3Request}
  {res : Response}

/-- What a program tells its client is what HDFS told it, or an error of the gateway. -/
theorem serve_failures (h : (self.serve req).Runs log res) :
    (∃ err, failures log = [err] ∧ res.error? = some (self.mapError err)) ∨
      (failures log = [] ∧ ∀ e, res.error? = some e → e ∈ ownErrors req) := by
  cases req with
  | headObject input =>
    have hnone := deniedStart_eq_none (listedDirs_object (by simp) h)
    obtain ⟨own, rest, r, rfl, hhead, hrest⟩ := Prog.runs_bind.mp h
    obtain ⟨rfl, rfl⟩ := Prog.runs_ret.mp hrest
    rw [failures, hnone, List.append_nil]
    rcases headObject_passesOn hhead with ⟨err, htold, rfl⟩ | ⟨htold, hown⟩
    · exact .inl ⟨err, htold, rfl⟩
    · refine .inr ⟨htold, fun e he => ?_⟩
      cases r with
      | error e' => exact hown e (congrArg Except.error (Option.some.inj he))
      | ok out => contradiction
  | getObject input polls =>
    have hnone := deniedStart_eq_none (listedDirs_object (by simp) h)
    obtain ⟨own, rest, r, rfl, hget, hrest⟩ := Prog.runs_bind.mp h
    obtain ⟨rfl, rfl⟩ := Prog.runs_ret.mp hrest
    rw [failures, hnone, List.append_nil]
    have hpasses : self.PassesOn (own.filterMap failureOf) (ownErrors (.getObject input polls)) r :=
      serveGet_passesOn hget
    rcases hpasses with ⟨err, htold, rfl⟩ | ⟨htold, hown⟩
    · exact .inl ⟨err, htold, rfl⟩
    · refine .inr ⟨htold, fun e he => ?_⟩
      cases r with
      | error e' => exact hown e (congrArg Except.error (Option.some.inj he))
      | ok out => contradiction
  | listObjectsV2 input fuel =>
    obtain ⟨own, rest, r, rfl, hlist, hrest⟩ := Prog.runs_bind.mp h
    obtain ⟨rfl, rfl⟩ := Prog.runs_ret.mp hrest
    rw [List.append_nil]
    unfold listObjectsV2 at hlist
    cases hargs : self.listArgs input with
    | error e =>
      rw [hargs] at hlist
      obtain ⟨rfl, rfl⟩ := Prog.runs_ret.mp hlist
      refine .inr ⟨rfl, fun e' he' => ?_⟩
      obtain rfl := Option.some.inj he'
      exact listArgs_error hargs
    | ok args =>
      rw [hargs] at hlist
      obtain ⟨own, rest, page, rfl, hpage, hdone⟩ := Prog.runs_bind.mp hlist
      obtain ⟨rfl, rfl⟩ := Prog.runs_ret.mp hdone
      rw [List.append_nil]
      rcases (listPage_passesOn hpage).map (self.listOutput input args) with
        ⟨err, htold, heq⟩ | ⟨htold, hown⟩
      · exact .inl ⟨err, htold, by rw [heq]; rfl⟩
      · refine .inr ⟨htold, fun e he => absurd ?_ (hown e)⟩
        cases hresult : page.map (self.listOutput input args) with
        | error failed =>
          rw [hresult] at he
          cases failed with
          | response e' => rw [Option.some.inj he]
          | outOfFuel => contradiction
        | ok out =>
          rw [hresult] at he
          contradiction

/-- Every answered request passes on what HDFS told it. In every run, whatever runs beside it and
whatever is cached, either HDFS told this request one failure, and the response is the mapped failure,
or it told it none, and an error in the response is one of the errors that the gateway makes itself.
So a failure of HDFS is neither swallowed nor served to a request that did not see it. -/
theorem failures_passed_on (hs : self.Reachable hdfs now start s) (hfin : s.Finished tid req res) :
    (∃ err, failures (ownCommands tid s.world.log) = [err] ∧
        res.error? = some (self.mapError err)) ∨
      (failures (ownCommands tid s.world.log) = [] ∧
        ∀ e, res.error? = some e → e ∈ ownErrors req) :=
  serve_failures (runs_ownCommands hs hfin)

/-- An HDFS in which nothing may be read. -/
def denied : StaticHdfs where
  stat _ := .error (.rpcError "AccessControlException" "")
  openFile _ := .error (.rpcError "AccessControlException" "")
  list _ := .error (.rpcError "AccessControlException" "")
  chunk _ _ _ _ := none

/-- A bucket that may not be read is denied, by the one reply of HDFS. -/
theorem failures_passed_on_denied :
    ∃ s : Pool Cmd Cmd.Resp (World reference.withoutCache.crates Unit) S3Request Response,
      reference.withoutCache.Reachable (movingHdfs fun _ => denied) 0 () s ∧
      ∃ err, failures (ownCommands 0 s.world.log) = [err] ∧
        reference.withoutCache.mapError err = { code := .accessDenied } := by
  have hinit : reference.withoutCache.Reachable (movingHdfs fun _ => denied) 0 () _ := .init
  obtain ⟨s, hs, -, hfin⟩ := exists_served (n := fun _ => denied) rfl hinit ()
    (.listObjectsV2 bucketInput 0)
  have hres : (reference.withoutCache.serve (.listObjectsV2 bucketInput 0)).eval denied.missing =
      .listObjectsV2 (.error (.response { code := .accessDenied })) := by decide +kernel
  rw [hres] at hfin
  refine ⟨s, hs, ?_⟩
  rcases failures_passed_on hs hfin with ⟨err, htold, hresponse⟩ | ⟨-, hown⟩
  · exact ⟨err, htold, (Option.some.inj hresponse).symm⟩
  · exact absurd (hown _ rfl) (by decide)

end HdfsGateway

end HdfsS3Gateway
