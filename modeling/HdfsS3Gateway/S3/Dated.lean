import HdfsS3Gateway.Library.History
import HdfsS3Gateway.S3.Keeps

/-!
# The log explains the caches

Every entry of a cache was inserted at the instant it carries, and its path was not removed since.
Every hit found an entry younger than the TTL, and every insertion was made by a request whose own
preceding command was the call to HDFS that gave the value. Commands keep this as long as requests
insert only what they were just told, whatever HDFS answers and does on its own.

The second half gives the rules by which a program is shown to do so. They also follow which calls
a request has made and how they were answered, since nothing ever leaves the log.
-/

namespace HdfsS3Gateway

open Interaction History

/-! ## Events -/

namespace Event

/-- The event is a reply of the NameNode on this path that gives this value. -/
def Gives (mapper : PathMapper) (e : Event) : (name : CacheName) → Str → name.Value → Prop
  | .metadata, path, m => ∃ status : FileStatus, e.Replies (.getFileInfo path) (.ok status) ∧
      m = (⟨status.length, status.isdir, status.modificationTime⟩ : FileMeta)
  | .negative, path, _ => ∃ missing, e.Replies (.getFileInfo path) (.error (.fileNotFound missing))
  | .blocks, path, cached => ∃ reader label, e.Replies (.read path label) (.ok reader) ∧
      cached = (⟨reader, label.length, label.modificationTime⟩ : CachedReader)
  | .dirs, path, listing => ∃ statuses, e.Replies (.listStatus path) (.ok statuses) ∧
      listing = listingFromStatuses statuses mapper

end Event

/-- If the event is a hit, its value was inserted less than the TTL before, and its path was not
removed since. -/
def FreshHit (ttlOf : CacheName → ℕ) (before : List Event) (e : Event) : Prop :=
  ∀ name path value, e.Hits name path value →
    Since (fun r => ¬ r.Removes name path) (fun i => i.Inserts name path value ∧
      i.time ≤ e.time ∧ e.time < i.time + ttlOf name) before

/-- The request's own last event is a reply of the NameNode on this path that gives this value. -/
def Told (mapper : PathMapper) (tid : ℕ) (name : CacheName) (path : Str) (value : name.Value)
    (log : List Event) : Prop :=
  Since (fun r => r.tid ≠ tid) (fun a => a.tid = tid ∧ a.Gives mapper name path value) log

/-- If the event is an insertion, its request was told the value by its own last command. -/
def ToldInsert (mapper : PathMapper) (before : List Event) (e : Event) : Prop :=
  ∀ name path value, e.Inserts name path value → Told mapper e.tid name path value before

namespace HdfsGateway

variable (self : HdfsGateway) {H : Type} (hdfs : Hdfs H)

/-- The TTL of each cache, in nanoseconds. -/
def ttlOf (name : CacheName) : ℕ := ttl self.config.cache (name.ttlMs self.config.cache)

/-- The log explains the caches: every entry was inserted when it says and not removed since, every
hit was fresh, and every insertion was told by HDFS. -/
structure Dated (gateway : HdfsGateway) (w : World gateway.crates H) : Prop where
  ttls : w.caches.HasTtl gateway.ttlOf
  past : ∀ e ∈ w.log, e.time ≤ w.now
  hits : EachAfter (FreshHit gateway.ttlOf) w.log
  inserts : EachAfter (ToldInsert gateway.mapper) w.log
  entries : ∀ name path value t, w.caches.Holds name path value t →
    Since (fun r => ¬ r.Removes name path) (fun i => i.Inserts name path value ∧ i.time = t) w.log

variable {self}

/-- Fresh caches need no explanation. -/
theorem dated_init (now : ℕ) (start : H) :
    self.Dated (World.init self.crates self.config.cache now start) where
  ttls _ := rfl
  past := by simp [World.init]
  hits := eachAfter_nil
  inserts := eachAfter_nil
  entries _ _ _ _ h := absurd h Caches.not_holds_new

variable {hdfs}

/-- A command keeps the log explaining the caches, if what it inserts was told by HDFS. -/
theorem Dated.exec {w w' : World self.crates H} (h : self.Dated w) {tid : ℕ} {c : Cmd} {r : c.Resp}
    (hexec : w.Exec hdfs tid c r w') (htold : ∀ name path value weight,
      c = .cacheInsert name path value weight → Told self.mapper tid name path value w.log) :
    self.Dated w' := by
  obtain ⟨hnow, -, hlog⟩ := hexec.frame
  constructor
  · rw [hexec.caches]
    exact World.hasTtl_cachesAfter h.ttls
  · rw [hlog, hnow]
    intro e he
    rcases List.mem_append.mp he with he | he
    · exact h.past e he
    · rw [List.mem_singleton.mp he]
  · rw [hlog]
    apply h.hits.concat
    intro name path value hhit
    obtain ⟨rfl, hr⟩ : c = .cacheGet name path ∧ r ≍ some value := by
      have hinj := Event.mk.inj hhit
      exact ⟨hinj.2.2.1, hinj.2.2.2⟩
    obtain rfl := eq_of_heq hr
    obtain ⟨t, hheld, hlive⟩ := hexec.hit
    rw [h.ttls name] at hlive
    apply (h.entries name path value t hheld).mono
    intro i hi hinserts
    have hpast := h.past i hi
    refine ⟨hinserts.1, hpast, ?_⟩
    change w.now < i.time + _
    omega
  · rw [hlog]
    apply h.inserts.concat
    intro name path value hinsert
    obtain ⟨weight, hinsert⟩ := hinsert
    exact htold name path value weight (Event.mk.inj hinsert).2.2.1
  · intro name path value t hheld
    rw [hexec.caches] at hheld
    rw [hlog]
    rcases World.holds_cachesAfter hheld with ⟨weight, rfl, rfl⟩ | ⟨hold, hremove⟩
    · exact since_concat ⟨⟨weight, rfl⟩, rfl⟩
    · apply (h.entries name path value t hold).append
      simpa [Event.Removes] using hremove

/-- The passing of time and changes of HDFS keep the log explaining the caches. -/
theorem Dated.outside {w w' : World self.crates H} (h : self.Dated w)
    (hout : World.Outside hdfs w w') : self.Dated w' := by
  rcases hout with ⟨d, rfl⟩ | ⟨_, -, rfl⟩
  · exact { h with past := fun e he => Nat.le_trans (h.past e he) (Nat.le_add_right _ _) }
  · exact { h with }

variable (self hdfs)

/-- The log explains the caches. A request sees only others append to the log between its own
commands. -/
def dated : Rely (gatewayMachine self.crates hdfs) where
  inv := self.Dated
  later tid w w' := ∃ added, w'.log = w.log ++ added ∧ ∀ r ∈ added, r.tid ≠ tid
  refl _ w := ⟨[], by simp, by simp⟩
  trans := by
    rintro tid a b c ⟨x, hb, hx⟩ ⟨y, hc, hy⟩
    refine ⟨x ++ y, by rw [hc, hb, List.append_assoc], fun r hr => ?_⟩
    rcases List.mem_append.mp hr with hr | hr
    · exact hx r hr
    · exact hy r hr
  outside := by
    intro w w' hinv hout
    refine ⟨hinv.outside hout, fun tid => ⟨[], ?_, by simp⟩⟩
    rcases hout with ⟨d, rfl⟩ | ⟨_, -, rfl⟩ <;> exact (List.append_nil _).symm

variable {self hdfs} {α β : Type} {tid : ℕ} {w : World self.crates H}

/-! ## Rules -/

/-- What a request was told by its last command it still was when others have moved on. -/
theorem told_later {w' : World self.crates H} (hle : (self.dated hdfs).later tid w w')
    {P : Event → Prop} (h : Since (fun r => r.tid ≠ tid) P w.log) :
    Since (fun r => r.tid ≠ tid) P w'.log := by
  obtain ⟨added, hlog, hadded⟩ := hle
  rw [hlog]
  exact h.append hadded

/-- The rule of one command: an insertion must have been told. -/
theorem ensures_command {c : Cmd} {Q : World self.crates H → c.Resp → Prop}
    (htold : ∀ name path value weight, c = .cacheInsert name path value weight →
      Told self.mapper tid name path value w.log)
    (hQ : ∀ w' r w'', self.Dated w' → w'.Exec hdfs tid c r w'' →
      ∀ v, (self.dated hdfs).later tid w'' v → Q v r) :
    (Prog.perform c : Req c.Resp).Ensures (self.dated hdfs) tid Q w := by
  apply Prog.ensures_perform
  intro w' r w'' hle hinv hexec
  refine ⟨?_, fun other hother => ⟨_, hexec.frame.2.2, ?_⟩, hQ w' r w'' hinv hexec⟩
  · exact Dated.exec hinv hexec fun name path value weight hc =>
      told_later hle (htold name path value weight hc)
  · intro e he
    rw [List.mem_singleton.mp he]
    exact hother.symm

/-- The rule of a call to HDFS: what follows has just been told the reply. -/
theorem ensures_upstream {u : Upstream} {f : u.Reply → Req β} {Q : World self.crates H → β → Prop}
    (hf : ∀ r v, Since (fun e => e.tid ≠ tid) (fun e => e.tid = tid ∧ e.Replies u r) v.log →
      (f r).Ensures (self.dated hdfs) tid Q v) :
    (callUpstream u >>= f).Ensures (self.dated hdfs) tid Q w := by
  apply Prog.ensures_bind
  apply ensures_command
  · intro name path value weight hc
    cases hc
  · intro w' r w'' _ hexec v hle
    apply hf r v
    apply told_later hle
    rw [hexec.frame.2.2]
    exact since_concat ⟨rfl, rfl⟩

/-- The rule of a lookup: with caching disabled there is no hit. -/
theorem ensures_lookup {name : CacheName} {path : Str} {f : Option name.Value → Req β}
    {Q : World self.crates H → β → Prop}
    (hmiss : ∀ v, (f none).Ensures (self.dated hdfs) tid Q v)
    (hhit : ∀ value v, self.config.cache.enabled = true →
      (f (some value)).Ensures (self.dated hdfs) tid Q v) :
    (cacheGet name path >>= f).Ensures (self.dated hdfs) tid Q w := by
  apply Prog.ensures_bind
  apply ensures_command
  · intro name' path' value weight hc
    cases hc
  · intro w' r w'' hinv hexec v _
    cases r with
    | none => exact hmiss v
    | some value =>
      obtain ⟨t, -, hlive⟩ := hexec.hit
      rw [hinv.ttls name, ttlOf, ttl] at hlive
      apply hhit value v
      by_contra hdisabled
      rw [if_neg hdisabled] at hlive
      omega

/-- Inserting what the request was just told. -/
theorem ensures_insert {name : CacheName} {path : Str} {value : name.Value} {weight : ℕ}
    (h : Told self.mapper tid name path value w.log) :
    (cacheInsert name path value weight).Ensures (self.dated hdfs) tid (fun _ _ => True) w := by
  apply ensures_command
  · intro name' path' value' weight' hc
    obtain ⟨rfl, rfl, hvalue, -⟩ := Cmd.cacheInsert.inj hc
    rwa [← eq_of_heq hvalue]
  · exact fun _ _ _ _ _ _ _ => trivial

/-- Only insertions have to be told. -/
theorem reads_keep_dated : ReadsKeep (self.dated hdfs) := fun _ hc _ _ =>
  ensures_command (fun _ _ _ _ heq => absurd heq (hc _ _ _ _)) fun _ _ _ _ _ _ _ => trivial

/-! ## A request's own calls -/

/-- The request got this reply to this call. -/
def Answered (tid : ℕ) (u : Upstream) (r : u.Reply) (log : List Event) : Prop :=
  ∃ e ∈ log, e.tid = tid ∧ e.Replies u r

/-- The request made this call. -/
def Called (tid : ℕ) (u : Upstream) (log : List Event) : Prop := ∃ r, Answered tid u r log

/-- What was just told was answered. -/
theorem answered_of_since {u : Upstream} {r : u.Reply} {log : List Event} {Q : Event → Prop}
    (h : Since Q (fun e => e.tid = tid ∧ e.Replies u r) log) : Answered tid u r log := by
  obtain ⟨before, e, after, rfl, he, -⟩ := h
  exact ⟨e, by simp, he⟩

/-- A call that was answered stays answered when others have moved on. -/
theorem answered_later {u : Upstream} {r : u.Reply} {w' : World self.crates H}
    (hle : (self.dated hdfs).later tid w w') (h : Answered tid u r w.log) :
    Answered tid u r w'.log := by
  obtain ⟨added, hlog, -⟩ := hle
  obtain ⟨e, he, hreply⟩ := h
  exact ⟨e, hlog ▸ List.mem_append_left _ he, hreply⟩

/-- A call that was answered stays answered while a program runs. -/
theorem ensures_answered {u : Upstream} {r : u.Reply} {p : Req α}
    {Q : World self.crates H → α → Prop} (hp : p.Ensures (self.dated hdfs) tid Q w)
    (h : Answered tid u r w.log) :
    p.Ensures (self.dated hdfs) tid (fun v a => Q v a ∧ Answered tid u r v.log) w := by
  apply hp.frame _ _ h
  · exact fun v v' hle hv => answered_later hle hv
  · intro v c r' v' hexec hv
    obtain ⟨e, he, hreply⟩ := hv
    exact ⟨e, hexec.frame.2.2 ▸ List.mem_append_left _ he, hreply⟩

/-- A call that was made stays made when others have moved on. -/
theorem called_later {u : Upstream} {w' : World self.crates H}
    (hle : (self.dated hdfs).later tid w w') (h : Called tid u w.log) : Called tid u w'.log := by
  obtain ⟨r, hr⟩ := h
  exact ⟨r, answered_later hle hr⟩

/-- A call that was made stays made while a program runs. -/
theorem ensures_called {u : Upstream} {p : Req α} {Q : World self.crates H → α → Prop}
    (hp : p.Ensures (self.dated hdfs) tid Q w) (h : Called tid u w.log) :
    p.Ensures (self.dated hdfs) tid (fun v a => Q v a ∧ Called tid u v.log) w := by
  obtain ⟨r, hr⟩ := h
  exact (ensures_answered hp hr).mono fun v a hv => ⟨hv.1, r, hv.2⟩

/-- A call that the first part of a program makes, its whole makes, if the rest keeps the invariant. -/
theorem ensures_called_bind {u : Upstream} {p : Req α} {f : α → Req β} {cond : Prop}
    (hp : p.Ensures (self.dated hdfs) tid (fun v _ => cond → Called tid u v.log) w)
    (hf : ∀ a, (self.dated hdfs).Keeps (f a)) :
    (p >>= f).Ensures (self.dated hdfs) tid (fun v _ => cond → Called tid u v.log) w := by
  apply Prog.ensures_bind
  apply hp.mono
  intro v a hcalled
  by_cases hcond : cond
  · exact (ensures_called (hf a tid v) (hcalled hcond)).mono fun _ _ h _ => h.2
  · exact (hf a tid v).mono fun _ _ _ h => absurd h hcond

end HdfsGateway

end HdfsS3Gateway
