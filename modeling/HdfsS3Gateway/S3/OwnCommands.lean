import HdfsS3Gateway.S3.Calls
import HdfsS3Gateway.S3.ChangingTiling

/-!
# What one request does

The commands that one request executed, with their responses, are a transcript of its program,
whatever ran beside it, and so far as it has come. So what a request did is read off its program.

A listing request lists no directory twice, while HDFS changes and also when it fails.
-/

namespace HdfsS3Gateway

open Interaction History

variable {H : Type}

/-- The commands of one request, in order, with their responses. -/
def ownCommands (tid : ℕ) (log : List Event) : List (Sigma Cmd.Resp) :=
  (log.filter fun e => e.tid = tid).map fun e => ⟨e.cmd, e.resp⟩

/-- The log of the world records who executed what. -/
def worldRecording (crates : Crates) (hdfs : Hdfs H) : Recording (gatewayMachine crates hdfs) where
  log w := w.log.map fun e => (e.tid, ⟨e.cmd, e.resp⟩)
  exec h := by
    rw [h.frame.2.2, List.map_append]
    rfl
  outside h := by
    rcases h with ⟨d, rfl⟩ | ⟨_, -, rfl⟩ <;> rfl

theorem own_eq (crates : Crates) (hdfs : Hdfs H) (tid : ℕ) (w : World crates H) :
    (worldRecording crates hdfs).own tid w = ownCommands tid w.log := by
  simp only [Recording.own, worldRecording, ownCommands, List.filter_map, List.map_map]
  rfl

theorem mem_ownCommands {tid : ℕ} {log : List Event} {x : Sigma Cmd.Resp} :
    x ∈ ownCommands tid log ↔ ∃ e ∈ log, e.tid = tid ∧ (⟨e.cmd, e.resp⟩ : Sigma Cmd.Resp) = x := by
  simp [ownCommands, and_assoc]

/-! ## Transcripts of commands -/

section Commands

variable {α : Type} {name : CacheName} {path : Str} {log : List (Sigma Cmd.Resp)} {a : α}

theorem runs_cacheGet {f : Option name.Value → Req α} : (cacheGet name path >>= f).Runs log a ↔
    ∃ (r : Option name.Value) (rest : List (Sigma Cmd.Resp)),
      log = ⟨.cacheGet name path, r⟩ :: rest ∧ (f r).Runs rest a := Prog.runs_call

theorem runs_callUpstream {u : Upstream} {f : u.Reply → Req α} :
    (callUpstream u >>= f).Runs log a ↔ ∃ (r : u.Reply) (rest : List (Sigma Cmd.Resp)),
      log = ⟨.upstream u, r⟩ :: rest ∧ (f r).Runs rest a := Prog.runs_call

theorem runs_cacheInsert {value : name.Value} {weight : ℕ} {f : Unit → Req α} :
    (cacheInsert name path value weight >>= f).Runs log a ↔ ∃ rest : List (Sigma Cmd.Resp),
      log = ⟨.cacheInsert name path value weight, ()⟩ :: rest ∧ (f ()).Runs rest a := by
  constructor
  · intro h
    obtain ⟨⟨⟩, rest, hlog, h⟩ := Prog.runs_call.mp h
    exact ⟨rest, hlog, h⟩
  · rintro ⟨rest, hlog, h⟩
    exact Prog.runs_call.mpr ⟨(), rest, hlog, h⟩

theorem runs_cacheRemove {f : Unit → Req α} : (cacheRemove name path >>= f).Runs log a ↔
    ∃ rest : List (Sigma Cmd.Resp), log = ⟨.cacheRemove name path, ()⟩ :: rest ∧
      (f ()).Runs rest a := by
  constructor
  · intro h
    obtain ⟨⟨⟩, rest, hlog, h⟩ := Prog.runs_call.mp h
    exact ⟨rest, hlog, h⟩
  · rintro ⟨rest, hlog, h⟩
    exact Prog.runs_call.mpr ⟨(), rest, hlog, h⟩

end Commands

namespace HdfsGateway

variable {self : HdfsGateway} {hdfs : Hdfs H} {now : ℕ} {start : H}
  {s : Pool Cmd Cmd.Resp (World self.crates H) S3Request Response} {tid : ℕ} {req : S3Request}
  {res : Response}

/-- What a request that has been answered did is a transcript of its program. -/
theorem runs_ownCommands (hs : self.Reachable hdfs now start s) (hfin : s.Finished tid req res) :
    (self.serve req).Runs (ownCommands tid s.world.log) res := by
  have hruns := hs.runs_own (worldRecording self.crates hdfs) rfl hfin
  rwa [own_eq] at hruns

/-- What a request did so far can be completed to a transcript of its program, with any responses to
the commands that are left. -/
theorem exists_completion (hs : self.Reachable hdfs now start s)
    {t : Task Cmd Cmd.Resp S3Request Response} (ht : s.tasks[tid]? = some t)
    (oracle : (c : Cmd) → c.Resp) : ∃ rest res, (∀ e ∈ rest, e.2 = oracle e.1) ∧
      (self.serve t.request).Runs (ownCommands tid s.world.log ++ rest) res := by
  have hruns := (hs.transcript (worldRecording self.crates hdfs) rfl).2 tid t ht _ _
    (Prog.runs_eval oracle t.rest)
  rw [own_eq] at hruns
  refine ⟨_, _, fun e he => ?_, hruns⟩
  obtain ⟨c, -, rfl⟩ := List.mem_map.mp he
  rfl

/-- A request that has not been started did nothing. -/
theorem ownCommands_eq_nil (hs : self.Reachable hdfs now start s) (ht : s.tasks[tid]? = none) :
    ownCommands tid s.world.log = [] := by
  rw [← own_eq self.crates hdfs]
  exact (hs.transcript _ rfl).1 tid (List.getElem?_eq_none_iff.mp ht)

/-! ## The directories that a request lists -/

/-- The directories that are listed by these commands. -/
def listedDirs (log : List (Sigma Cmd.Resp)) : List Str :=
  log.filterMap fun e => match e.1 with
    | .upstream (.listStatus path) => some path
    | _ => none

theorem listedDirs_append (log log' : List (Sigma Cmd.Resp)) :
    listedDirs (log ++ log') = listedDirs log ++ listedDirs log' := List.filterMap_append

/-- Commands that list nothing. -/
theorem listedDirs_eq_nil {log : List (Sigma Cmd.Resp)}
    (h : ∀ e ∈ log, OnUpstream (fun u => ∀ path, u ≠ .listStatus path) e.1) : listedDirs log = [] := by
  apply List.filterMap_eq_nil_iff.mpr
  rintro ⟨c, r⟩ he
  have hc := h _ he
  cases c with
  | upstream u =>
    cases u with
    | listStatus path => exact absurd rfl (hc path)
    | getFileInfo | read | pollRange => rfl
  | cacheGet | cacheInsert | cacheRemove => rfl

/-- How listing a directory goes: its listing is in the cache, or HDFS is asked for it once. -/
theorem listDir_runs {dir : Str} {log : List (Sigma Cmd.Resp)} {r : Except HdfsError DirListing}
    (h : (self.listDir dir).Runs log r) :
    (∃ listing, log = [⟨.cacheGet .dirs dir, some listing⟩] ∧ r = .ok listing) ∨
      ∃ (reply : Except HdfsError (List FileStatus)) (rest : List (Sigma Cmd.Resp)),
        log = ⟨.cacheGet .dirs dir, none⟩ :: ⟨.upstream (.listStatus dir), reply⟩ :: rest ∧
        (rest = [] ∨ ∃ listing weight, rest = [⟨.cacheInsert .dirs dir listing weight, ()⟩]) ∧
        r = reply.map fun statuses => listingFromStatuses statuses self.mapper := by
  obtain ⟨cached, rest, rfl, hfetch⟩ := runs_cacheGet.mp h
  cases cached with
  | some listing =>
    obtain ⟨rfl, rfl⟩ := Prog.runs_ret.mp hfetch
    exact .inl ⟨listing, rfl, rfl⟩
  | none =>
    right
    obtain ⟨reply, rest, rfl, hreply⟩ := runs_callUpstream.mp hfetch
    cases reply with
    | error err =>
      obtain ⟨rfl, rfl⟩ := Prog.runs_ret.mp hreply
      exact ⟨.error err, [], rfl, .inl rfl, rfl⟩
    | ok statuses =>
      simp only [] at hreply
      split at hreply
      · obtain ⟨rest, rfl, hdone⟩ := runs_cacheInsert.mp hreply
        obtain ⟨rfl, rfl⟩ := Prog.runs_ret.mp hdone
        exact ⟨.ok statuses, _, rfl, .inr ⟨_, _, rfl⟩, rfl⟩
      · obtain ⟨rfl, rfl⟩ := Prog.runs_ret.mp hreply
        exact ⟨.ok statuses, [], rfl, .inl rfl, rfl⟩

/-- So at most the directory itself is listed. -/
theorem listedDirs_listDir {dir : Str} {log : List (Sigma Cmd.Resp)}
    {r : Except HdfsError DirListing} (h : (self.listDir dir).Runs log r) :
    (listedDirs log).Sublist [dir] := by
  rcases listDir_runs h with ⟨listing, rfl, -⟩ | ⟨reply, rest, rfl, hrest, -⟩
  · exact List.nil_sublist _
  · rcases hrest with rfl | ⟨listing, weight, rfl⟩ <;> exact List.Sublist.refl [dir]

/-- What the commands told is backed by the log: a listing that was found was relayed, and a reply
was given. -/
def Backed (m : PathMapper) (log : List Event) (e : Sigma Cmd.Resp) : Prop :=
  (∀ path (listing : DirListing), e = ⟨.cacheGet .dirs path, some listing⟩ →
    Relays m log ⟨path, .ok listing⟩) ∧
  ∀ path (statuses : List FileStatus), e = ⟨.upstream (.listStatus path), .ok statuses⟩ →
    Listed log path (.ok statuses)

/-- A handled listing lists at most what it is asked for, and relays what it is told. -/
theorem handled_listDir {told : List Exchange} {own : List (Sigma Cmd.Resp)} {log : List Event}
    (h : Prog.Handled self.listDir told own) (hbacked : ∀ e ∈ own, Backed self.mapper log e) :
    (listedDirs own).Sublist (told.map Sigma.fst) ∧
      ∀ e ∈ told, ∀ listing, e.2 = .ok listing → Relays self.mapper log e := by
  induction h with
  | nil => exact ⟨.slnil, by simp⟩
  | @cons dir r own rest told hown _ ih =>
    obtain ⟨hdirs, hrelays⟩ := ih fun e he => hbacked e (List.mem_append_right _ he)
    have hown_backed : ∀ e ∈ own, Backed self.mapper log e := fun e he =>
      hbacked e (List.mem_append_left _ he)
    rw [listedDirs_append, List.map_cons]
    refine ⟨(listedDirs_listDir hown).append hdirs, fun e he listing hok => ?_⟩
    rcases List.mem_cons.mp he with rfl | he
    · rcases listDir_runs hown with ⟨found, rfl, rfl⟩ | ⟨reply, more, rfl, -, rfl⟩
      · exact (hown_backed _ (List.mem_singleton_self _)).1 dir found rfl
      · cases reply with
        | error err => contradiction
        | ok statuses =>
          have hlisted := (hown_backed ⟨.upstream (.listStatus dir), .ok statuses⟩ (by simp)).2 dir
            statuses rfl
          exact ⟨.ok statuses, hlisted, rfl⟩
    · exact hrelays e he listing hok

/-- The log backs every command in it. -/
theorem Dated.backed {w : World self.crates H} (h : self.Dated w) :
    ∀ e ∈ ownCommands tid w.log, Backed self.mapper w.log e := by
  intro x hx
  obtain ⟨e, he, -, rfl⟩ := mem_ownCommands.mp hx
  obtain ⟨first, second, hlog⟩ := List.append_of_mem he
  constructor
  · intro path listing heq
    obtain ⟨hcmd, hresp⟩ := Sigma.mk.inj heq
    have hhit : e.Hits .dirs path listing := by
      obtain ⟨_, _, cmd, resp⟩ := e
      obtain rfl : cmd = _ := hcmd
      exact congrArg (Event.mk _ _ _) (eq_of_heq hresp)
    obtain ⟨before, i, after, rfl, ⟨hinserts, -⟩, -⟩ := h.hits first e second hlog .dirs path listing
      hhit
    have htold : Told self.mapper i.tid .dirs path listing before :=
      h.inserts before i (after ++ e :: second) (by simp [hlog]) .dirs path listing hinserts
    obtain ⟨earlier, a, later, rfl, ⟨-, statuses, hreply, rfl⟩, -⟩ := htold
    exact ⟨.ok statuses, ⟨a, by simp [hlog], hreply⟩, rfl⟩
  · intro path statuses heq
    obtain ⟨hcmd, hresp⟩ := Sigma.mk.inj heq
    refine ⟨e, he, ?_⟩
    obtain ⟨_, _, cmd, resp⟩ := e
    obtain rfl : cmd = _ := hcmd
    exact congrArg (Event.mk _ _ _) (eq_of_heq hresp)

/-- An HDFS that has nothing. -/
def vanished : StaticHdfs where
  stat _ := .error (.fileNotFound "")
  openFile _ := .error (.fileNotFound "")
  list _ := .error (.fileNotFound "")
  chunk _ _ _ _ := none

/-- A HEAD or a GET lists nothing. -/
theorem listedDirs_object (hlists : ∀ input fuel, req ≠ .listObjectsV2 input fuel)
    {log : List (Sigma Cmd.Resp)} (h : (self.serve req).Runs log res) : listedDirs log = [] := by
  have hpath : ∀ bucket key, self.PathCalls (fun u => ∀ path, u ≠ .listStatus path) bucket key :=
    fun _ _ _ _ => ⟨by simp, by simp⟩
  have halways : (self.serve req).Always (OnUpstream fun u => ∀ path, u ≠ .listStatus path) := by
    cases req with
    | headObject input =>
      exact Prog.always_bind (self.always_headObject (hpath _ _)) fun _ _ => trivial
    | getObject input polls =>
      exact Prog.always_bind (self.always_serveGet (hpath _ _) (by simp)) fun _ _ => trivial
    | listObjectsV2 input fuel => exact absurd rfl (hlists input fuel)
  exact listedDirs_eq_nil (h.always halways)

/-- The directories of a page are different ones, whatever the page ends with. -/
theorem listedDirs_collectFlat {fuel : ℕ} {args : ListArgs} {limit : Option ℕ}
    {own : List (Sigma Cmd.Resp)} {log : List Event}
    {result : Except ListFailure (List ListEntry × Bool)} (hsettled : Settled log)
    (h : (self.collectFlat fuel args limit).Runs own result)
    (hbacked : ∀ e ∈ own, Backed self.mapper log e) : (listedDirs own).Nodup := by
  unfold collectFlat at h
  cases hstart : self.mapper.listStart args.pre with
  | none =>
    rw [hstart] at h
    rw [(Prog.runs_ret.mp h).1]
    exact List.nodup_nil
  | some path =>
    rw [hstart] at h
    obtain ⟨qs, hplain, rfl⟩ := exists_start hstart
    obtain ⟨own, rest, page, rfl, hpage, hrest⟩ := Prog.runs_bind.mp h
    obtain rfl : rest = [] := by
      split at hrest <;> exact (Prog.runs_ret.mp hrest).1
    obtain ⟨told, hruns, hhandled⟩ := hpage.handled
    obtain ⟨hdirs, hrelays⟩ := handled_listDir hhandled (by simpa using hbacked)
    rw [List.append_nil]
    exact (SortedListing.listed_nodup (starts_new hplain hstart) hruns
      (orderly_of_settled hsettled hrelays)).sublist hdirs

/-- So are those of a listing. -/
theorem listedDirs_listPage {fuel : ℕ} {args : ListArgs} {own : List (Sigma Cmd.Resp)}
    {log : List Event} {result : Except ListFailure Page} (hsettled : Settled log)
    (h : (self.listPage fuel args).Runs own result)
    (hbacked : ∀ e ∈ own, Backed self.mapper log e) : (listedDirs own).Nodup := by
  unfold listPage at h
  split_ifs at h with hslash hsome
  · obtain ⟨own, rest, reply, rfl, hlist, hrest⟩ := Prog.runs_bind.mp h
    obtain rfl : rest = [] := by
      split at hrest <;> exact (Prog.runs_ret.mp hrest).1
    rw [List.append_nil]
    unfold listStartDir at hlist
    split at hlist
    · rw [(Prog.runs_ret.mp hlist).1]
      exact List.nodup_nil
    · exact (List.nodup_singleton _).sublist (listedDirs_listDir hlist)
  all_goals
    obtain ⟨own, rest, collected, rfl, hcollected, hrest⟩ := Prog.runs_bind.mp h
    obtain rfl : rest = [] := (Prog.runs_ret.mp hrest).1
    rw [List.append_nil] at hbacked ⊢
  · unfold collectAll at hcollected
    split_ifs at hcollected
    · rw [(Prog.runs_ret.mp hcollected).1]
      exact List.nodup_nil
    · exact listedDirs_collectFlat hsettled hcollected hbacked
  · exact listedDirs_collectFlat hsettled hcollected hbacked

/-- No request lists a directory twice. In every state that any interleaving reaches, whatever HDFS did
so far, if no path that it listed as a file was ever named as a directory, then the directories that
one request has asked HDFS to list are all different, also when the request fails or is still
running. -/
theorem lists_once (hs : self.Reachable hdfs now start s) (hsettled : Settled s.world.log)
    (tid : ℕ) : (listedDirs (ownCommands tid s.world.log)).Nodup := by
  cases ht : s.tasks[tid]? with
  | none =>
    rw [ownCommands_eq_nil hs ht]
    exact List.nodup_nil
  | some t =>
    -- what is left of the request finds nothing cached and an empty HDFS
    obtain ⟨rest, res, hrest, hruns⟩ := exists_completion hs ht vanished.missing
    suffices hall : (listedDirs (ownCommands tid s.world.log ++ rest)).Nodup by
      rw [listedDirs_append] at hall
      exact (List.nodup_append.mp hall).1
    have hdated : self.Dated s.world := hs.inv (self.dated hdfs)
      (fun _ req v res => self.PageFor v.log req res) (dated_init now start)
      fun _ req w _ => serve_page req w
    have hbacked : ∀ e ∈ ownCommands tid s.world.log ++ rest, Backed self.mapper s.world.log e := by
      intro e he
      rcases List.mem_append.mp he with he | he
      · exact hdated.backed e he
      · have horacle := hrest e he
        exact ⟨fun path listing heq => by subst heq; contradiction,
          fun path statuses heq => by subst heq; contradiction⟩
    cases hreq : t.request with
    | headObject input =>
      rw [listedDirs_object (by simp [hreq]) hruns]
      exact List.nodup_nil
    | getObject input polls =>
      rw [listedDirs_object (by simp [hreq]) hruns]
      exact List.nodup_nil
    | listObjectsV2 input fuel =>
      rw [hreq] at hruns
      obtain ⟨own, more, result, hown, hlist, hmore⟩ := Prog.runs_bind.mp hruns
      obtain rfl : more = [] := (Prog.runs_ret.mp hmore).1
      rw [List.append_nil] at hown
      rw [hown] at hbacked ⊢
      unfold listObjectsV2 at hlist
      split at hlist
      · rw [(Prog.runs_ret.mp hlist).1]
        exact List.nodup_nil
      · obtain ⟨own, more, page, rfl, hpage, hdone⟩ := Prog.runs_bind.mp hlist
        obtain rfl : more = [] := (Prog.runs_ret.mp hdone).1
        rw [List.append_nil] at hbacked ⊢
        exact listedDirs_listPage hsettled hpage hbacked

/-- The requests before and after the move list the bucket once each. -/
theorem lists_once_moved :
    ∃ s : Pool Cmd Cmd.Resp (World reference.withoutCache.crates Bool) S3Request Response,
      reference.withoutCache.Reads s bucketInput none movedPages ∧
      (listedDirs (ownCommands 0 s.world.log)).Nodup ∧
      (listedDirs (ownCommands 1 s.world.log)).Nodup := by
  obtain ⟨s, hs, hreads⟩ := exists_moved_run
  have hsettled := moved_settled hs
  exact ⟨s, hreads, lists_once hs hsettled 0, lists_once hs hsettled 1⟩

end HdfsGateway

end HdfsS3Gateway
