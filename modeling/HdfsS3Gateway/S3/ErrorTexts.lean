import HdfsS3Gateway.Library.Lockstep
import HdfsS3Gateway.S3.UpstreamErrors

/-!
# What an error of HDFS tells a client

An error of HDFS carries texts: paths, exception messages, names of hosts. The gateway looks only at
the kind of an error, and unless it is told to expose errors it answers with the kind only. So two
HDFS that fail in the same ways, with any texts, cannot be told apart: every run over the one has a
twin over the other, with the same commands, the same caches and the same responses.
-/

namespace HdfsS3Gateway

open Interaction

/-! ## Kinds of errors -/

/-- What the gateway tells apart about an error. -/
structure ErrorKind where
  code : S3ErrorCode
  dirDenied : Bool
  notFound : Bool
  deriving DecidableEq, Repr

/-- The kind of an error: its code, whether it denies a directory, whether it says that there is none. -/
def HdfsError.kind (err : HdfsError) : ErrorKind where
  code := hdfsErrorCode err
  dirDenied := isDirDenied err
  notFound := match err with
    | .fileNotFound _ => true
    | _ => false

/-- The same value, or errors of the same kind. -/
inductive SameKind {α : Type} : Except HdfsError α → Except HdfsError α → Prop
  | ok (a : α) : SameKind (.ok a) (.ok a)
  | error {err err' : HdfsError} (h : err.kind = err'.kind) : SameKind (.error err) (.error err')

/-- The same item of a stream, or errors of the same kind. -/
inductive SameItem : Option (Chunk HdfsError) → Option (Chunk HdfsError) → Prop
  | none : SameItem none none
  | some {item item' : Chunk HdfsError} (h : SameKind item item') : SameItem (some item) (some item')

/-- Replies that differ in the texts of an error only. -/
def Upstream.Alike : (u : Upstream) → u.Reply → u.Reply → Prop
  | .getFileInfo _, r, r' => SameKind (α := FileStatus) r r'
  | .read _ _, r, r' => SameKind (α := FileReader) r r'
  | .listStatus _, r, r' => SameKind (α := List FileStatus) r r'
  | .pollRange _ _ _ _, r, r' => SameItem r r'

/-- Responses to a command that differ in the texts of an error only. -/
def Cmd.Alike : (c : Cmd) → c.Resp → c.Resp → Prop
  | .upstream u, r, r' => u.Alike r r'
  | .cacheGet _ _, r, r' => r = r'
  | .cacheInsert _ _ _ _, _, _ | .cacheRemove _ _, _, _ => True

/-- Errors of one kind are skipped alike. -/
theorem skippable_of_kind {err err' : HdfsError} (h : err.kind = err'.kind) :
    SortedListing.skippable err = SortedListing.skippable err' := by
  have hskip (err : HdfsError) :
      SortedListing.skippable err = (err.kind.dirDenied || err.kind.notFound) := by
    cases err <;> rfl
  rw [hskip, hskip, h]

/-! ## The engine -/

/-- The same end of a listing, or errors of the same kind. -/
inductive ListError.Alike : ListError → ListError → Prop
  | upstream {err err' : HdfsError} (h : err.kind = err'.kind) : Alike (.upstream err) (.upstream err')
  | outOfFuel : Alike .outOfFuel .outOfFuel

/-- The same result of a listing, or ends alike. -/
inductive SameResult {α : Type} : Except ListError α → Except ListError α → Prop
  | ok (a : α) : SameResult (.ok a) (.ok a)
  | error {e e' : ListError} (h : e.Alike e') : SameResult (.error e) (.error e')

namespace SortedListing

/-- The same end of a turn, or errors of the same kind. -/
inductive Turn.Alike : Turn → Turn → Prop
  | same (t : Turn) : Alike t t
  | fail {err err' : HdfsError} (h : err.kind = err'.kind) : Alike (.fail err) (.fail err')

/-- The lister answers alike. -/
abbrev ListsAlike (_ : Str) (r r' : Except HdfsError DirListing) : Prop := SameKind r r'

/-- The same state after ends alike. -/
abbrev SameTurn (x y : Turn × SortedListing) : Prop := Turn.Alike x.1 y.1 ∧ x.2 = y.2

/-- The same state after results alike. -/
abbrev SamePull {α : Type} (x y : Except ListError α × SortedListing) : Prop :=
  SameResult x.1 y.1 ∧ x.2 = y.2

/-- What the reply about a directory does. -/
def opened (s : SortedListing) : Except HdfsError DirListing → Turn × SortedListing
  | .ok listing => (.again, s.pushListing listing)
  | .error err => if skippable err then (.again, s) else (.fail err, s)

/-- What the reply about the start does. -/
def seeded (s : SortedListing) : Except HdfsError DirListing → Except HdfsError SortedListing
  | .ok listing => .ok ({ s with startSeeded := true }.pushListing listing)
  | .error err =>
    if err.kind.notFound then .ok { s with startSeeded := true, exhausted := true } else .error err

theorem openDir_eq (s : SortedListing) (path : Str) :
    s.openDir path = .call path fun r => .ret (s.opened r) := by
  unfold openDir
  rw [Prog.perform_bind]
  congr 1
  funext r
  cases r with
  | ok listing => rfl
  | error err =>
    by_cases hdenied : isDirDenied err = true
    · simp [opened, skippable, hdenied]
    · cases err <;> simp [opened, skippable, hdenied]

theorem seed_eq (s : SortedListing) : s.seed = .call s.start fun r => .ret (s.seeded r) := by
  unfold seed
  simp only [Prog.perform_bind]
  congr 1
  funext r
  cases r with
  | ok listing => rfl
  | error err => cases err <;> rfl

theorem openDir_lockstep (s : SortedListing) (path : Str) :
    (s.openDir path).Lockstep ListsAlike SameTurn (s.openDir path) := by
  rw [openDir_eq]
  refine .call fun r r' h => .ret ?_
  cases h with
  | ok listing => exact ⟨.same _, rfl⟩
  | error h =>
    unfold opened
    simp only [skippable_of_kind h]
    split
    · exact ⟨.same _, rfl⟩
    · exact ⟨.fail h, rfl⟩

theorem turn_lockstep (s : SortedListing) : s.turn.Lockstep ListsAlike SameTurn s.turn := by
  have hret (t : Turn) (s : SortedListing) :
      (pure (t, s) : Listing _).Lockstep ListsAlike SameTurn (pure (t, s)) := .ret ⟨.same t, rfl⟩
  unfold turn
  split
  · exact hret _ _
  · split
    · simp only []
      split
      · exact hret _ _
      · split
        · split <;> exact hret _ _
        · exact hret _ _
    · simp only []
      split
      · exact hret _ _
      · split
        · exact hret _ _
        · split
          · exact hret _ _
          · exact openDir_lockstep _ _

theorem nextLoop_lockstep (fuel : ℕ) (s : SortedListing) :
    (nextLoop fuel s).Lockstep ListsAlike SamePull (nextLoop fuel s) := by
  induction fuel generalizing s with
  | zero => exact .ret ⟨.error .outOfFuel, rfl⟩
  | succ fuel ih =>
    refine Prog.lockstep_bind (turn_lockstep s) fun x y h => ?_
    obtain ⟨t, s'⟩ := x
    obtain ⟨t', s''⟩ := y
    obtain ⟨ht, rfl⟩ : Turn.Alike t t' ∧ s' = s'' := h
    cases ht with
    | same =>
      cases t with
      | emit entry => exact .ret ⟨.ok _, rfl⟩
      | stop => exact .ret ⟨.ok _, rfl⟩
      | again => exact ih s'
      | fail err => exact .ret ⟨.error (.upstream rfl), rfl⟩
    | fail h => exact .ret ⟨.error (.upstream h), rfl⟩

theorem seed_lockstep (s : SortedListing) : s.seed.Lockstep ListsAlike SameKind s.seed := by
  rw [seed_eq]
  refine .call fun r r' h => .ret ?_
  cases h with
  | ok listing => exact .ok _
  | error h =>
    unfold seeded
    simp only [h]
    split
    · exact .ok _
    · exact .error h

theorem nextEntry_lockstep (fuel : ℕ) (s : SortedListing) :
    (nextEntry fuel s).Lockstep ListsAlike SamePull (nextEntry fuel s) := by
  unfold nextEntry
  split
  · exact .ret ⟨.ok _, rfl⟩
  · split
    · exact nextLoop_lockstep fuel s
    · refine Prog.lockstep_bind (seed_lockstep s) fun x y h => ?_
      cases h with
      | ok seeded =>
        simp only []
        split
        · exact .ret ⟨.ok _, rfl⟩
        · exact nextLoop_lockstep fuel seeded
      | error h => exact .ret ⟨.error (.upstream h), rfl⟩

theorem collectLoop_lockstep (fuel rounds : ℕ) (limit : Option ℕ) (s : SortedListing)
    (page : List ListEntry) : (collectLoop fuel limit rounds s page).Lockstep ListsAlike SameResult
      (collectLoop fuel limit rounds s page) := by
  induction rounds generalizing s page with
  | zero => exact .ret (.error .outOfFuel)
  | succ rounds ih =>
    unfold collectLoop
    split
    all_goals
      refine Prog.lockstep_bind (nextEntry_lockstep fuel s) fun x y h => ?_
      obtain ⟨r, s'⟩ := x
      obtain ⟨r', s''⟩ := y
      obtain ⟨hr, rfl⟩ : SameResult r r' ∧ s' = s'' := h
    · cases hr with
      | ok entry => exact .ret (.ok _)
      | error h => exact .ret (.error h)
    · cases hr with
      | ok entry =>
        cases entry with
        | none => exact .ret (.ok _)
        | some entry => exact ih s' _
      | error h => exact .ret (.error h)

/-- A page issues the same calls for errors of the same kind, and ends alike. -/
theorem collectPage_lockstep (fuel : ℕ) (limit : Option ℕ) (s : SortedListing) :
    (s.collectPage fuel limit).Lockstep ListsAlike SameResult (s.collectPage fuel limit) := by
  unfold collectPage
  split
  · exact .ret (.ok _)
  · exact collectLoop_lockstep fuel fuel limit s []

end SortedListing

/-! ## Requests -/

/-- What a client sees of a body: its bytes, and that it breaks off, but not why. -/
def Body.seen (body : Body) : List (Except Unit (List UInt8)) × Bool :=
  (body.items.map (Except.mapError fun _ => ()), body.ended)

/-- Responses that a client cannot tell apart. -/
inductive Response.SameSeen : Response → Response → Prop
  | same (res : Response) : SameSeen res res
  | body (object : GetObject) {body body' : Body} (h : body.seen = body'.seen) :
      SameSeen (.getObject (.ok (object, body))) (.getObject (.ok (object, body')))

namespace HdfsGateway

variable {self : HdfsGateway}

section Rules

variable {α β : Type} {Q : α → β → Prop}

theorem lockstep_cacheGet {name : CacheName} {path : Str} {f : Option name.Value → Req α}
    {f' : Option name.Value → Req β} (h : ∀ r, (f r).Lockstep Cmd.Alike Q (f' r)) :
    (cacheGet name path >>= f).Lockstep Cmd.Alike Q (cacheGet name path >>= f') := by
  refine .call fun r r' heq => ?_
  obtain rfl : r = r' := heq
  exact h r

theorem lockstep_cacheInsert {name : CacheName} {path : Str} {value : name.Value} {weight : ℕ}
    {f : Unit → Req α} {f' : Unit → Req β} (h : (f ()).Lockstep Cmd.Alike Q (f' ())) :
    (cacheInsert name path value weight >>= f).Lockstep Cmd.Alike Q
      (cacheInsert name path value weight >>= f') := .call fun _ _ _ => h

theorem lockstep_cacheRemove {name : CacheName} {path : Str} {f : Unit → Req α} {f' : Unit → Req β}
    (h : (f ()).Lockstep Cmd.Alike Q (f' ())) :
    (cacheRemove name path >>= f).Lockstep Cmd.Alike Q (cacheRemove name path >>= f') :=
  .call fun _ _ _ => h

theorem lockstep_callUpstream {u : Upstream} {f : u.Reply → Req α} {f' : u.Reply → Req β}
    (h : ∀ r r', u.Alike r r' → (f r).Lockstep Cmd.Alike Q (f' r')) :
    (callUpstream u >>= f).Lockstep Cmd.Alike Q (callUpstream u >>= f') := .call h

end Rules

/-- Unexposed, an error becomes its code. -/
theorem mapError_eq (hexpose : self.config.exposeUpstreamErrors = false) (err : HdfsError) :
    self.mapError err = { code := err.kind.code } := by
  cases err <;> simp [mapError, mapHdfsError, hexpose, HdfsError.kind, hdfsErrorCode]

/-- What the reply about the metadata of a path does. -/
def stated (self : HdfsGateway) (path : Str) :
    Except HdfsError FileStatus → Req (Except S3Error FileMeta)
  | .ok status => do
    let found : FileMeta := ⟨status.length, status.isdir, status.modificationTime⟩
    cacheInsert .metadata path found 1
    pure (.ok found)
  | .error err =>
    if err.kind.notFound then do
      cacheInsert .negative path () 1
      pure (.error { code := .noSuchKey })
    else pure (.error (self.mapError err))

theorem statFile_eq (path : Str) :
    self.statFile path = callUpstream (.getFileInfo path) >>= self.stated path := by
  unfold statFile
  congr 1
  funext r
  cases r with
  | ok status => rfl
  | error err => cases err <;> rfl

/-- What the reply about the start does to a page for the delimiter `/`. -/
def slashPage (self : HdfsGateway) (args : ListArgs) :
    Except HdfsError DirListing → Except ListFailure Page
  | .ok listing =>
    .ok (paginateSlash listing.files listing.dirs args.pre args.startAfter args.maxKeys)
  | .error err =>
    if err.kind.notFound then .ok (paginateSlash [] [] args.pre args.startAfter args.maxKeys)
    else .error (.response (self.mapError err))

theorem pageSlash_eq (args : ListArgs) :
    self.pageSlash args = self.listStartDir args >>= fun r => pure (self.slashPage args r) := by
  unfold pageSlash
  congr 1
  funext r
  cases r with
  | ok listing => rfl
  | error err => cases err <;> rfl

/-- A poll of a body evicts alike. -/
theorem pollBody_lockstep (path : Str) (object : GetObject) (position : ℕ) :
    (pollBody path object position).Lockstep Cmd.Alike SameItem (pollBody path object position) := by
  refine lockstep_callUpstream fun r r' h => ?_
  have hsame : SameItem r r' := h
  cases hsame with
  | none => exact .ret .none
  | some hitem =>
    cases hitem with
    | ok bytes => exact .ret (.some (.ok bytes))
    | error hkind => exact lockstep_cacheRemove (lockstep_cacheRemove (.ret (.some (.error hkind))))

/-- A body breaks off alike. -/
theorem drain_lockstep (path : Str) (object : GetObject) (polls : ℕ) (stream : BytesStream) :
    (BytesStream.drain (pollBody path object) polls stream).Lockstep Cmd.Alike
      (fun x y => Body.seen ⟨x.1, x.2⟩ = Body.seen ⟨y.1, y.2⟩)
      (BytesStream.drain (pollBody path object) polls stream) := by
  induction polls generalizing stream with
  | zero => exact .ret rfl
  | succ polls ih =>
    unfold BytesStream.drain BytesStream.next
    split
    · exact .ret rfl
    · rw [LawfulMonad.bind_assoc]
      refine Prog.lockstep_bind (pollBody_lockstep path object _) fun item item' h => ?_
      -- the items of the rest are the same, and so is this one but for the error
      have hrest (x y : Chunk GetBodyError) (next : BytesStream)
          (hxy : x.mapError (fun _ => ()) = y.mapError fun _ => ()) :
          (BytesStream.drain (pollBody path object) polls next >>= fun p =>
            pure (x :: p.1, p.2)).Lockstep Cmd.Alike
            (fun x y => Body.seen ⟨x.1, x.2⟩ = Body.seen ⟨y.1, y.2⟩)
            (BytesStream.drain (pollBody path object) polls next >>= fun p =>
              pure (y :: p.1, p.2)) := by
        refine Prog.lockstep_bind (ih next) fun p q hpq => .ret ?_
        obtain ⟨hitems, hended⟩ := Prod.mk.inj hpq
        exact Prod.ext (congrArg₂ List.cons hxy hitems) hended
      cases h with
      | none =>
        simp only [Prog.pure_eq_ret, Prog.ret_bind, BytesStream.receive]
        split
        · exact .ret rfl
        · exact hrest _ _ _ rfl
      | some hitem =>
        cases hitem with
        | ok bytes => exact hrest _ _ _ rfl
        | error hkind => exact hrest _ _ _ rfl

/-- A listing is remembered or fails alike. -/
theorem listDir_lockstep (dir : Str) :
    (self.listDir dir).Lockstep Cmd.Alike SameKind (self.listDir dir) := by
  refine lockstep_cacheGet fun cached => ?_
  cases cached with
  | some listing => exact .ret (.ok listing)
  | none =>
    refine lockstep_callUpstream fun r r' h => ?_
    have hsame : SameKind (α := List FileStatus) r r' := h
    cases hsame with
    | ok statuses =>
      simp only []
      split
      · exact lockstep_cacheInsert (.ret (.ok _))
      · exact .ret (.ok _)
    | error hkind => exact .ret (.error hkind)

theorem listStartDir_lockstep (args : ListArgs) :
    (self.listStartDir args).Lockstep Cmd.Alike SameKind (self.listStartDir args) := by
  unfold listStartDir
  split
  · exact .ret (.ok _)
  · exact listDir_lockstep _

section Unexposed

variable (hexpose : self.config.exposeUpstreamErrors = false)

include hexpose

theorem mapError_of_kind {err err' : HdfsError} (h : err.kind = err'.kind) :
    self.mapError err = self.mapError err' := by
  rw [mapError_eq hexpose, mapError_eq hexpose, h]

theorem fileMeta_lockstep (path : Str) :
    (self.fileMeta path).Lockstep Cmd.Alike Eq (self.fileMeta path) := by
  refine lockstep_cacheGet fun cached => ?_
  cases cached with
  | some found => exact .ret rfl
  | none =>
    refine lockstep_cacheGet fun missing => ?_
    cases missing with
    | some known => exact .ret rfl
    | none =>
      simp only [statFile_eq]
      refine lockstep_callUpstream fun r r' h => ?_
      have hsame : SameKind (α := FileStatus) r r' := h
      cases hsame with
      | ok status => exact lockstep_cacheInsert (.ret rfl)
      | error hkind =>
        unfold stated
        simp only [hkind, mapError_of_kind hexpose hkind]
        split
        · exact lockstep_cacheInsert (.ret rfl)
        · exact .ret rfl

theorem readFile_lockstep (path : Str) (status : FileMeta) :
    (self.readFile path status).Lockstep Cmd.Alike Eq (self.readFile path status) := by
  refine lockstep_callUpstream fun r r' h => ?_
  have hsame : SameKind (α := FileReader) r r' := h
  cases hsame with
  | ok reader => exact lockstep_cacheInsert (.ret rfl)
  | error hkind =>
    exact lockstep_cacheRemove (.ret (congrArg Except.error (mapError_of_kind hexpose hkind)))

theorem openReader_lockstep (path : Str) (status : FileMeta) :
    (self.openReader path status).Lockstep Cmd.Alike Eq (self.openReader path status) := by
  refine lockstep_cacheGet fun cached => ?_
  cases cached with
  | some found =>
    simp only []
    split
    · exact .ret rfl
    · exact lockstep_cacheRemove (readFile_lockstep hexpose path status)
  | none => exact readFile_lockstep hexpose path status

theorem openObject_lockstep (path : Str) (status : FileMeta) (prepared : Prepared) :
    (self.openObject path status prepared).Lockstep Cmd.Alike Eq
      (self.openObject path status prepared) := by
  refine Prog.lockstep_bind (openReader_lockstep hexpose path status) fun r r' h => ?_
  subst h
  cases r with
  | error err => exact .ret rfl
  | ok reader =>
    simp only []
    split
    · exact lockstep_cacheRemove (lockstep_cacheRemove (.ret rfl))
    · exact .ret rfl

/-- Up to its headers a GET is the same for errors of the same kind. -/
theorem getObject_lockstep (input : GetObjectInput) :
    (self.getObject input).Lockstep Cmd.Alike Eq (self.getObject input) := by
  unfold getObject
  split
  · exact .ret rfl
  · rename_i path hpath
    refine Prog.lockstep_bind (fileMeta_lockstep hexpose path) fun r r' h => ?_
    subst h
    cases r with
    | error err => exact .ret rfl
    | ok status =>
      simp only []
      split
      · exact .ret rfl
      · exact openObject_lockstep hexpose path status _

theorem serveGet_lockstep (input : GetObjectInput) (polls : ℕ) :
    (Response.getObject <$> self.serveGet input polls).Lockstep Cmd.Alike Response.SameSeen
      (Response.getObject <$> self.serveGet input polls) := by
  have hserve : (self.serveGet input polls).Lockstep Cmd.Alike
      (fun r r' => Response.SameSeen (.getObject r) (.getObject r')) (self.serveGet input polls) := by
    refine Prog.lockstep_bind (getObject_lockstep hexpose input) fun r r' h => ?_
    subst h
    cases r with
    | error err => exact .ret (.same _)
    | ok found =>
      obtain ⟨path, object⟩ := found
      refine Prog.lockstep_bind (drain_lockstep path object polls _) fun x y h => .ret ?_
      exact .body object h
  exact Prog.lockstep_map hserve fun _ _ h => h

theorem collectFlat_lockstep (fuel : ℕ) (args : ListArgs) (limit : Option ℕ) :
    (self.collectFlat fuel args limit).Lockstep Cmd.Alike Eq (self.collectFlat fuel args limit) := by
  unfold collectFlat
  split
  · exact .ret rfl
  · rename_i path hstart
    refine Prog.lockstep_bind (Prog.lockstep_handle listDir_lockstep
      (SortedListing.collectPage_lockstep fuel limit _)) fun r r' h => ?_
    cases h with
    | ok page => exact .ret rfl
    | error halike =>
      cases halike with
      | upstream hkind =>
        exact .ret (congrArg (Except.error ∘ ListFailure.response) (mapError_of_kind hexpose hkind))
      | outOfFuel => exact .ret rfl

theorem listPage_lockstep (fuel : ℕ) (args : ListArgs) :
    (self.listPage fuel args).Lockstep Cmd.Alike Eq (self.listPage fuel args) := by
  unfold listPage
  split
  · rw [pageSlash_eq]
    refine Prog.lockstep_bind (listStartDir_lockstep args) fun r r' h => .ret ?_
    cases h with
    | ok listing => rfl
    | error hkind => simp only [slashPage, hkind, mapError_of_kind hexpose hkind]
  · split
    · refine Prog.lockstep_bind (Q := Eq) ?_ fun r r' h => .ret (h ▸ rfl)
      unfold collectAll
      split
      · exact .ret rfl
      · exact collectFlat_lockstep hexpose fuel args none
    · exact Prog.lockstep_bind (collectFlat_lockstep hexpose fuel args _) fun r r' h => .ret (h ▸ rfl)

/-- A request issues the same commands for errors of the same kind, and is answered alike. -/
theorem serve_lockstep (req : S3Request) :
    (self.serve req).Lockstep Cmd.Alike Response.SameSeen (self.serve req) := by
  cases req with
  | headObject input =>
    refine Prog.lockstep_map (Q := Eq) ?_ fun r r' h => h ▸ .same _
    unfold headObject
    split
    · exact .ret rfl
    · refine Prog.lockstep_bind (fileMeta_lockstep hexpose _) fun r r' h => ?_
      subst h
      cases r <;> exact .ret rfl
  | getObject input polls => exact serveGet_lockstep hexpose input polls
  | listObjectsV2 input fuel =>
    refine Prog.lockstep_map (Q := Eq) ?_ fun r r' h => h ▸ .same _
    unfold listObjectsV2
    split
    · exact .ret rfl
    · exact Prog.lockstep_bind (listPage_lockstep hexpose fuel _) fun r r' h => .ret (h ▸ rfl)

end Unexposed

/-! ## Runs -/

variable {H : Type} {hdfs hdfs' : Hdfs H} {now : ℕ} {start : H}
  {s : Pool Cmd Cmd.Resp (World self.crates H) S3Request Response}

/-- Worlds with the same caches, clock and HDFS, after the same commands. -/
structure SameButReplies {crates : Crates} (w w' : World crates H) : Prop where
  caches : w.caches = w'.caches
  now : w.now = w'.now
  hdfs : w.hdfs = w'.hdfs
  commands : w.log.map (fun e => (e.tid, e.time, e.cmd)) = w'.log.map fun e => (e.tid, e.time, e.cmd)

/-- An HDFS that can fail in the same way, with any texts, is followed. -/
theorem follows_alike {crates : Crates}
    (halike : ∀ d u r, hdfs.answer d u r → ∃ r', hdfs'.answer d u r' ∧ u.Alike r r')
    (hchange : ∀ d d', hdfs.change d d' → hdfs'.change d d') :
    (gatewayMachine crates hdfs).Follows (gatewayMachine crates hdfs') Cmd.Alike SameButReplies where
  exec := by
    intro tid w w' c r v hw hexec
    obtain ⟨hcaches, hnow, hhdfs, hlog⟩ := hw
    obtain ⟨r', hanswer, hr⟩ : ∃ r', w'.Answers hdfs' c r' ∧ c.Alike r r' := by
      have hanswers := hexec.1
      cases c with
      | cacheGet name path =>
        refine ⟨r, ?_, rfl⟩
        have hget : r = (w.caches.get crates.usizeMax w.now name path).1 := hanswers
        rw [hcaches, hnow] at hget
        exact hget
      | cacheInsert | cacheRemove => exact ⟨(), trivial, trivial⟩
      | upstream u =>
        obtain ⟨r', hr', hsame⟩ := halike w.hdfs u r hanswers
        rw [hhdfs] at hr'
        exact ⟨r', hr', hsame⟩
    refine ⟨r', _, ⟨hanswer, rfl⟩, hr, ?_⟩
    obtain ⟨-, rfl⟩ := hexec
    refine ⟨?_, hnow, hhdfs, ?_⟩
    · change w.cachesAfter c = w'.cachesAfter c
      cases c <;> simp only [World.cachesAfter, hcaches, hnow]
    · simp [World.record, hlog, hnow]
  outside := by
    intro w w' v hw hout
    obtain ⟨hcaches, hnow, hhdfs, hlog⟩ := hw
    rcases hout with ⟨d, rfl⟩ | ⟨d, hd, rfl⟩
    · exact ⟨_, .inl ⟨d, rfl⟩, hcaches, congrArg (· + d) hnow, hhdfs, hlog⟩
    · exact ⟨_, .inr ⟨d, hchange _ _ (hhdfs ▸ hd), rfl⟩, hcaches, hnow, rfl, hlog⟩

/-- Unexposed, the texts of HDFS errors reach no client and change nothing. Every run has a twin over
any HDFS that can give the same replies with other texts in its errors: the same commands were
executed at the same times, the caches are the same, and every request is answered alike. -/
theorem error_texts_unseen (hexpose : self.config.exposeUpstreamErrors = false)
    (halike : ∀ d u r, hdfs.answer d u r → ∃ r', hdfs'.answer d u r' ∧ u.Alike r r')
    (hchange : ∀ d d', hdfs.change d d' → hdfs'.change d d')
    (hs : self.Reachable hdfs now start s) :
    ∃ s', self.Reachable hdfs' now start s' ∧ SameButReplies s.world s'.world ∧
      ∀ tid req res, s.Finished tid req res →
        ∃ res', s'.Finished tid req res' ∧ res.SameSeen res' := by
  have hinit : SameButReplies (World.init self.crates self.config.cache now start)
      (World.init self.crates self.config.cache now start) := ⟨rfl, rfl, rfl, rfl⟩
  obtain ⟨s', hs', htwin⟩ :=
    hs.exists_twin (follows_alike halike hchange) (serve_lockstep hexpose) hinit
  exact ⟨s', hs', htwin.world, fun tid req res hfin => htwin.finished hfin⟩

/-- An HDFS in which nothing may be read, with an explanation. -/
def deniedFor (text : String) : StaticHdfs where
  stat _ := .error (.rpcError "AccessControlException" text)
  openFile _ := .error (.rpcError "AccessControlException" text)
  list _ := .error (.rpcError "AccessControlException" text)
  chunk _ _ _ _ := none

/-- A denied listing looks the same whatever the explanation. -/
theorem error_texts_unseen_denied :
    ∃ s : Pool Cmd Cmd.Resp (World reference.withoutCache.crates Unit) S3Request Response,
      ∃ s', reference.withoutCache.Reachable (movingHdfs fun _ => deniedFor "nn1") 0 () s' ∧
        SameButReplies s.world s'.world ∧ ∃ res', s'.Finished 0 (.listObjectsV2 bucketInput 0) res' ∧
          Response.SameSeen (.listObjectsV2 (.error (.response { code := .accessDenied }))) res' := by
  have hinit : reference.withoutCache.Reachable (movingHdfs fun _ => deniedFor "") 0 () _ := .init
  obtain ⟨s, hs, -, hfin⟩ := exists_served (n := fun _ => deniedFor "") rfl hinit ()
    (.listObjectsV2 bucketInput 0)
  have hres : (reference.withoutCache.serve (.listObjectsV2 bucketInput 0)).eval
      (deniedFor "").missing = .listObjectsV2 (.error (.response { code := .accessDenied })) := by
    decide +kernel
  rw [hres] at hfin
  have halike : ∀ (d : Unit) u r, (movingHdfs fun _ : Unit => deniedFor "").answer d u r →
      ∃ r', (movingHdfs fun _ : Unit => deniedFor "nn1").answer d u r' ∧ u.Alike r r' := by
    intro d u r hr
    refine ⟨_, rfl, ?_⟩
    cases u with
    | getFileInfo | read | listStatus =>
      subst hr
      exact .error rfl
    | pollRange =>
      subst hr
      exact .none
  obtain ⟨s', hs', hsame, hanswers⟩ := error_texts_unseen rfl halike (fun _ _ h => h) hs
  exact ⟨s, s', hs', hsame, hanswers _ _ _ hfin⟩

end HdfsGateway

end HdfsS3Gateway
