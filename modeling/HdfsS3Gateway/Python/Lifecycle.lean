import HdfsS3Gateway.Library.Notify
import Mathlib.Data.List.Basic

/-!
# The life of a server of the Python bindings

A `Gateway` object runs servers one after another, in a background thread or in the calling thread,
and stops them through one notification cell that all of them share. The cell remembers a signal
that no server takes, and the next server takes it as if it were meant for it.

A server binds, waits for the signal, takes it, drains and ends; or it ends by itself. The steps of
a run are those of the calls and of the servers, in any order that exclusive access to the object
allows: `start` and `stop` have the object for themselves until they return. Nothing is said about
whether `stop` gets hold of the object while `serve_blocking` uses it, so both is a run.
-/

namespace HdfsS3Gateway

namespace Python

/-- How a server is run. -/
inductive Kind where
  | background
  | blocking
  deriving DecidableEq, Repr

/-- Where a server is in its life. A signal is the number of the `stop` it comes from. -/
inductive Phase where
  /-- It listens, and has not polled the shutdown future yet. -/
  | bound
  | waiting
  /-- It was woken, and has not polled the shutdown future since. -/
  | notified (signal : ℕ)
  | draining (signal : ℕ)
  /-- Its thread has ended, after a signal or by itself. -/
  | finished (signal : Option ℕ)
  deriving DecidableEq, Repr

/-- The signal that has reached the server. -/
def Phase.signal : Phase → Option ℕ
  | .notified signal | .draining signal => some signal
  | .finished signal => signal
  | _ => none

/-- It runs, and no signal has reached it. -/
def Phase.isOpen : Phase → Bool
  | .bound | .waiting => true
  | _ => false

/-- Its thread has ended. -/
def Phase.isFinished : Phase → Bool
  | .finished _ => true
  | _ => false

/-- A server, and how many calls of `stop` came before it. -/
structure Server where
  kind : Kind
  began : ℕ
  phase : Phase
  deriving DecidableEq, Repr

/-- What the exclusive call in progress has still to do. -/
inductive Call where
  | idle
  /-- `stop` is about to signal. -/
  | stopping (signal : ℕ)
  /-- `stop` joins the thread of this server. -/
  | joining (server : ℕ)
  deriving DecidableEq, Repr

/-- A `Gateway` with all servers it has begun and the number of calls of `stop`. -/
structure Gateway where
  shutdown : Notify ℕ ℕ
  thread : Option ℕ
  servers : List Server
  stops : ℕ
  call : Call
  deriving DecidableEq, Repr

/-- What can happen next. -/
inductive Event where
  /-- `start()`; the server binds, or it cannot. -/
  | start (binds : Bool)
  /-- `serve_blocking()`; the server binds, or it cannot. -/
  | serveBlocking (binds : Bool)
  /-- `stop()`, up to the check whether the thread has finished. -/
  | stop
  /-- `self.shutdown.notify_one()`. -/
  | notifyOne
  /-- `handle.join()` returns. -/
  | join
  /-- A server polls the shutdown future. -/
  | poll (server : ℕ)
  /-- A server ends by itself. -/
  | fail (server : ℕ)
  /-- A server has drained its connections. -/
  | drained (server : ℕ)
  deriving DecidableEq, Repr

namespace Gateway

/-- `Gateway::new`. -/
def new : Gateway where
  shutdown := .new
  thread := none
  servers := []
  stops := 0
  call := .idle

/-- The thread of the server has ended. -/
def isFinished (self : Gateway) (i : ℕ) : Bool := self.servers[i]?.any fun server =>
  server.phase.isFinished

/-- `is_running`. -/
def isRunning (self : Gateway) : Bool :=
  match self.thread with
  | some i => !self.isFinished i
  | none => false

/-- A server binds. -/
def begin (kind : Kind) (self : Gateway) : Gateway :=
  { self with servers := self.servers ++ [⟨kind, self.stops, .bound⟩] }

/-- A server gets to another phase. -/
def setPhase (i : ℕ) (phase : Phase) (self : Gateway) : Gateway :=
  { self with servers := self.servers.modify i fun server => { server with phase } }

/-- `notify_one` on the shared cell, for the given `stop`. -/
def signal (k : ℕ) (self : Gateway) : Gateway :=
  match self.shutdown.notifyOne k with
  | (some i, shutdown) => ({ self with shutdown }).setPhase i (.notified k)
  | (none, shutdown) => { self with shutdown }

/-- `start`: refused while there is a thread, even one that has ended. -/
def start (binds : Bool) (self : Gateway) : Gateway :=
  match self.thread with
  | some _ => self
  | none =>
    if binds then { self.begin .background with thread := some self.servers.length } else self

/-- `stop`: an error if the thread has ended, else the signal follows. -/
def stop (self : Gateway) : Gateway :=
  match self.thread with
  | some i =>
    if self.isFinished i then { self with thread := none, stops := self.stops + 1 }
    else { self with stops := self.stops + 1, call := .stopping self.stops }
  | none => { self with stops := self.stops + 1, call := .stopping self.stops }

/-- The rest of `stop` after the signal: take the thread, if there is one, and join it. -/
def takeThread (self : Gateway) : Gateway :=
  match self.thread with
  | some i => { self with thread := none, call := .joining i }
  | none => { self with call := .idle }

/-- A server polls the shutdown future: it takes a signal or waits for one. -/
def poll (i : ℕ) (self : Gateway) : Option Gateway :=
  match self.servers[i]?.map Server.phase with
  | some .bound =>
    match self.shutdown.wait i with
    | (some k, shutdown) => some (({ self with shutdown }).setPhase i (.draining k))
    | (none, shutdown) => some (({ self with shutdown }).setPhase i .waiting)
  | some (.notified k) => some (self.setPhase i (.draining k))
  | _ => none

/-- A server ends by itself, and its shutdown future is dropped: a signal that has woken it and that
it has not taken is passed on. -/
def fail (i : ℕ) (self : Gateway) : Option Gateway :=
  match self.servers[i]?.map Server.phase with
  | some .bound => some (self.setPhase i (.finished none))
  | some .waiting =>
    some (({ self with shutdown := self.shutdown.leave i }).setPhase i (.finished none))
  | some (.notified k) => some ((self.setPhase i (.finished none)).signal k)
  | _ => none

/-- One step. Calls that need the object to themselves are only made when no such call is in
progress. -/
def step (self : Gateway) : Event → Option Gateway
  | .start binds => if self.call = .idle then some (self.start binds) else none
  | .serveBlocking binds =>
    if self.call = .idle then some (if binds then self.begin .blocking else self) else none
  | .stop => if self.call = .idle then some self.stop else none
  | .notifyOne =>
    match self.call with
    | .stopping k => some (self.signal k).takeThread
    | _ => none
  | .join =>
    match self.call with
    | .joining i => if self.isFinished i then some { self with call := .idle } else none
    | _ => none
  | .poll i => self.poll i
  | .fail i => self.fail i
  | .drained i =>
    match self.servers[i]?.map Server.phase with
    | some (.draining k) => some (self.setPhase i (.finished (some k)))
    | _ => none

/-- The steps of a run, one after another. -/
def run : List Event → Gateway → Option Gateway
  | [], self => some self
  | event :: events, self => (self.step event).bind (run events)

/-! ## Signals that no server has taken -/

/-- A signal was sent, and no server has taken it. -/
def Outstanding (self : Gateway) (k : ℕ) : Prop :=
  self.shutdown.stored = some k ∨
    ∃ (i : ℕ) (server : Server), self.servers[i]? = some server ∧ server.phase = .notified k

/-- Every signal that was sent has been taken. -/
def isSettled (self : Gateway) : Bool :=
  self.shutdown.stored.isNone && self.servers.all fun server =>
    match server.phase with
    | .notified _ => false
    | _ => true

/-- The condition on a step: `stop` signals only while a server runs that no signal has reached, and
a server begins only when every signal has been taken. -/
def meets (self : Gateway) : Event → Bool
  | .start true => self.thread.isSome || self.isSettled
  | .serveBlocking true => self.isSettled
  | .notifyOne => self.servers.any fun server => server.phase.isOpen
  | _ => true

/-- Every step of a run meets the condition. -/
def allMeet : List Event → Gateway → Bool
  | [], _ => true
  | event :: events, self =>
    self.meets event &&
      match self.step event with
      | some next => allMeet events next
      | none => true

/-- All servers began before the given `stop`. -/
def Precede (self : Gateway) (k : ℕ) : Prop :=
  k < self.stops ∧ ∀ (i : ℕ) (server : Server), self.servers[i]? = some server → server.began ≤ k

/-- No signal is older than a server it has reached or can still reach, and a background server
keeps its thread until the next `stop`. -/
structure Timely (gateway : Gateway) : Prop where
  began_le : ∀ (i : ℕ) (server : Server), gateway.servers[i]? = some server →
    server.began ≤ gateway.stops
  stopping : ∀ k, gateway.call = .stopping k → gateway.Precede k
  outstanding : ∀ k, gateway.Outstanding k → gateway.Precede k
  reached : ∀ (i : ℕ) (server : Server), gateway.servers[i]? = some server →
    ∀ k, server.phase.signal = some k → server.began ≤ k ∧ k < gateway.stops
  thread_eq : ∀ (i : ℕ) (server : Server), gateway.servers[i]? = some server →
    server.kind = .background → server.began = gateway.stops → gateway.thread = some i

variable {self next : Gateway}

/-- Nothing is outstanding once every signal has been taken. -/
theorem not_outstanding_of_isSettled (h : self.isSettled = true) (k : ℕ) : ¬ self.Outstanding k := by
  rw [isSettled, Bool.and_eq_true, Option.isNone_iff_eq_none, List.all_eq_true] at h
  obtain ⟨hstored, hall⟩ := h
  rintro (hout | ⟨i, server, hserver, hphase⟩)
  · rw [hstored] at hout
    contradiction
  · have htaken := hall server (List.mem_of_getElem? hserver)
    rw [hphase] at htaken
    contradiction

/-- Setting a phase changes that phase only. -/
theorem getElem?_setPhase {i j : ℕ} {phase : Phase} {server : Server}
    (h : (self.setPhase i phase).servers[j]? = some server) :
    ∃ old, self.servers[j]? = some old ∧ server.kind = old.kind ∧ server.began = old.began ∧
      (server.phase = old.phase ∨ (j = i ∧ server.phase = phase)) := by
  rw [setPhase, List.getElem?_modify] at h
  obtain ⟨old, hold, hserver⟩ := Option.map_eq_some_iff.mp h
  refine ⟨old, hold, ?_⟩
  split at hserver
  · rename_i hij
    rw [← hserver]
    exact ⟨rfl, rfl, Or.inr ⟨hij.symm, rfl⟩⟩
  · rw [← hserver]
    exact ⟨rfl, rfl, Or.inl rfl⟩

/-- A server that begins comes after the ones that are there. -/
theorem getElem?_begin {i : ℕ} {kind : Kind} {server : Server}
    (h : (self.begin kind).servers[i]? = some server) :
    self.servers[i]? = some server ∨
      i = self.servers.length ∧ server = ⟨kind, self.stops, .bound⟩ := by
  rw [begin, List.getElem?_append] at h
  split at h
  · exact Or.inl h
  · rename_i hlen
    rw [List.getElem?_singleton] at h
    split at h
    · exact Or.inr ⟨by omega, (Option.some.inj h).symm⟩
    · contradiction

/-- A signal reaches one server at most, or stays in the cell. -/
theorem getElem?_signal {j k : ℕ} {server : Server}
    (h : (self.signal k).servers[j]? = some server) :
    ∃ old, self.servers[j]? = some old ∧ server.kind = old.kind ∧ server.began = old.began ∧
      (server.phase = old.phase ∨ server.phase = .notified k) := by
  unfold signal at h
  split at h
  · obtain ⟨old, hold, hkind, hbegan, hphase⟩ := getElem?_setPhase h
    exact ⟨old, hold, hkind, hbegan, hphase.imp_right And.right⟩
  · exact ⟨server, h, rfl, rfl, Or.inl rfl⟩

/-- After a signal, it is the only new one that is outstanding. -/
theorem outstanding_signal {k k' : ℕ} (h : (self.signal k).Outstanding k') :
    self.Outstanding k' ∨ k' = k := by
  rcases h with hstored | ⟨i, server, hserver, hphase⟩
  · have hcell : (self.shutdown.notifyOne k).2.stored = some k' := by
      unfold signal at hstored
      split at hstored <;> rename_i hcell <;> rw [hcell] <;> exact hstored
    exact (Notify.stored_notifyOne hcell).imp_left Or.inl
  · obtain ⟨old, hold, -, -, hsame | hnew⟩ := getElem?_signal hserver
    · exact Or.inl (Or.inr ⟨i, old, hold, hsame ▸ hphase⟩)
    · rw [hnew] at hphase
      exact Or.inr (Phase.notified.inj hphase).symm

@[simp] theorem stops_signal (k : ℕ) : (self.signal k).stops = self.stops := by
  unfold signal
  split <;> rfl

@[simp] theorem thread_signal (k : ℕ) : (self.signal k).thread = self.thread := by
  unfold signal
  split <;> rfl

@[simp] theorem call_signal (k : ℕ) : (self.signal k).call = self.call := by
  unfold signal
  split <;> rfl

/-! ## One step -/

/-- A step that begins no server keeps signals timely, if the signals it passes on are no older than
any server. -/
theorem timely_of_update (h : self.Timely) (hstops : next.stops = self.stops)
    (hcall : ∀ k, next.call = .stopping k → self.call = .stopping k)
    (hservers : ∀ (i : ℕ) (server : Server), next.servers[i]? = some server →
      ∃ old, self.servers[i]? = some old ∧ server.kind = old.kind ∧ server.began = old.began ∧
        ∀ k, server.phase.signal = some k → old.phase.signal = some k ∨ self.Precede k)
    (houtstanding : ∀ k, next.Outstanding k → self.Precede k)
    (hthread : next.thread = self.thread ∨ ∃ k, self.Precede k) : next.Timely := by
  have hprecede : ∀ k, self.Precede k → next.Precede k := by
    rintro k ⟨hlt, hall⟩
    refine ⟨hstops ▸ hlt, fun i server hserver => ?_⟩
    obtain ⟨old, hold, -, hbegan, -⟩ := hservers i server hserver
    rw [hbegan]
    exact hall i old hold
  constructor
  · intro i server hserver
    obtain ⟨old, hold, -, hbegan, -⟩ := hservers i server hserver
    rw [hbegan, hstops]
    exact h.began_le i old hold
  · exact fun k hk => hprecede k (h.stopping k (hcall k hk))
  · exact fun k hk => hprecede k (houtstanding k hk)
  · intro i server hserver k hk
    obtain ⟨old, hold, -, hbegan, hsignal⟩ := hservers i server hserver
    rw [hbegan, hstops]
    rcases hsignal k hk with hsignal | ⟨hlt, hall⟩
    · exact h.reached i old hold k hsignal
    · exact ⟨hall i old hold, hlt⟩
  · intro i server hserver hkind heq
    obtain ⟨old, hold, hkind', hbegan, -⟩ := hservers i server hserver
    rw [hkind'] at hkind
    rw [hbegan, hstops] at heq
    rcases hthread with hsame | ⟨k, hlt, hall⟩
    · rw [hsame]
      exact h.thread_eq i old hold hkind heq
    · have hle := hall i old hold
      omega

theorem timely_new : new.Timely where
  began_le i server h := by simp [new] at h
  stopping k h := by contradiction
  outstanding k h := by
    rcases h with h | ⟨i, server, h, -⟩
    · contradiction
    · simp [new] at h
  reached i server h := by simp [new] at h
  thread_eq i server h := by simp [new] at h

/-- A server that begins when every signal has been taken has none to fear. -/
theorem timely_begin (h : self.Timely) (kind : Kind) (hidle : self.call = .idle)
    (hsettled : self.isSettled = true) (thread : Option ℕ)
    (hthread : thread = self.thread ∧ kind = .blocking ∨
      thread = some self.servers.length ∧ self.thread = none) :
    Timely { self.begin kind with thread } := by
  constructor
  · intro i server hserver
    rcases getElem?_begin hserver with hold | ⟨-, rfl⟩
    · exact h.began_le i server hold
    · exact Nat.le_refl _
  · intro k hk
    have hno : self.call = .stopping k := hk
    rw [hidle] at hno
    contradiction
  · rintro k (hstored | ⟨i, server, hserver, hphase⟩)
    · exact absurd (Or.inl hstored) (not_outstanding_of_isSettled hsettled k)
    · rcases getElem?_begin hserver with hold | ⟨-, rfl⟩
      · exact absurd (Or.inr ⟨i, server, hold, hphase⟩) (not_outstanding_of_isSettled hsettled k)
      · contradiction
  · intro i server hserver k hk
    rcases getElem?_begin hserver with hold | ⟨-, rfl⟩
    · exact h.reached i server hold k hk
    · contradiction
  · intro i server hserver hkind heq
    rcases getElem?_begin hserver with hold | ⟨rfl, rfl⟩
    · have hthread_eq := h.thread_eq i server hold hkind heq
      rcases hthread with ⟨hsame, -⟩ | ⟨-, hnone⟩
      · exact hsame.trans hthread_eq
      · rw [hnone] at hthread_eq
        contradiction
    · rcases hthread with ⟨-, hblocking⟩ | ⟨hnew, -⟩
      · exact absurd (hkind.symm.trans hblocking) (by decide)
      · exact hnew

/-- A call of `stop` comes after every server that has begun, whatever it does to the thread. -/
theorem timely_count (h : self.Timely) (thread : Option ℕ) (call : Call)
    (hcall : ∀ k, call = .stopping k → k = self.stops) :
    Timely { self with thread, stops := self.stops + 1, call } where
  began_le i server hserver := Nat.le_succ_of_le (h.began_le i server hserver)
  stopping k hk := by
    rw [hcall k hk]
    exact ⟨Nat.lt_succ_self _, h.began_le⟩
  outstanding k hk := by
    obtain ⟨hlt, hall⟩ := h.outstanding k hk
    exact ⟨Nat.lt_succ_of_lt hlt, hall⟩
  reached i server hserver k hk := by
    obtain ⟨hle, hlt⟩ := h.reached i server hserver k hk
    exact ⟨hle, Nat.lt_succ_of_lt hlt⟩
  thread_eq i server hserver _ heq := by
    have hle := h.began_le i server hserver
    exact absurd (heq ▸ hle) (Nat.not_succ_le_self _)

theorem timely_stop (h : self.Timely) (hidle : self.call = .idle) : self.stop.Timely := by
  have hstopping : ∀ k, Call.stopping self.stops = .stopping k → k = self.stops :=
    fun k hk => (Call.stopping.inj hk).symm
  unfold stop
  split
  · split
    · exact timely_count h none self.call fun k hk => by
        rw [hidle] at hk
        contradiction
    · exact timely_count h self.thread _ hstopping
  · exact timely_count h self.thread _ hstopping

/-- A signal is no older than any server while its `stop` has the object for itself. -/
theorem timely_signal (h : self.Timely) {k : ℕ} (hprecede : self.Precede k) :
    (self.signal k).Timely := by
  refine timely_of_update h (stops_signal k) (fun k' hk' => by rwa [call_signal] at hk') ?_ ?_
    (Or.inl (thread_signal k))
  · intro i server hserver
    obtain ⟨old, hold, hkind, hbegan, hphase⟩ := getElem?_signal hserver
    refine ⟨old, hold, hkind, hbegan, fun k' hk' => ?_⟩
    rcases hphase with hsame | hnew
    · exact Or.inl (hsame ▸ hk')
    · rw [hnew] at hk'
      obtain rfl := Option.some.inj hk'
      exact Or.inr hprecede
  · intro k' hk'
    rcases outstanding_signal hk' with hold | rfl
    · exact h.outstanding k' hold
    · exact hprecede

/-- Taking the thread comes with a `stop` that is later than every server. -/
theorem timely_takeThread (h : self.Timely) {k : ℕ} (hprecede : self.Precede k) :
    self.takeThread.Timely := by
  have hservers : ∀ (i : ℕ) (server : Server), self.takeThread.servers[i]? = some server →
      self.servers[i]? = some server := by
    intro i server hserver
    unfold takeThread at hserver
    split at hserver <;> exact hserver
  have hcell : self.takeThread.shutdown = self.shutdown := by
    unfold takeThread
    split <;> rfl
  have hstops : self.takeThread.stops = self.stops := by
    unfold takeThread
    split <;> rfl
  refine timely_of_update h hstops ?_ ?_ ?_ (Or.inr ⟨k, hprecede⟩)
  · intro k' hk'
    unfold takeThread at hk'
    split at hk' <;> contradiction
  · exact fun i server hserver => ⟨server, hservers i server hserver, rfl, rfl, fun _ hk => Or.inl hk⟩
  · rintro k' (hstored | ⟨i, server, hserver, hphase⟩)
    · exact h.outstanding k' (Or.inl (hcell ▸ hstored))
    · exact h.outstanding k' (Or.inr ⟨i, server, hservers i server hserver, hphase⟩)

/-- A server gets to another phase, and the cell to another state, without a newer signal. -/
theorem timely_setPhase (h : self.Timely) (i : ℕ) (phase : Phase) (cell : Notify ℕ ℕ)
    (hcell : ∀ k, cell.stored = some k → self.shutdown.stored = some k)
    (hphase : ∀ k, phase.signal = some k → self.Outstanding k ∨ ∃ server,
      self.servers[i]? = some server ∧ server.phase.signal = some k)
    (htaken : ∀ k, phase ≠ .notified k) :
    (setPhase i phase { self with shutdown := cell }).Timely := by
  refine timely_of_update h rfl (fun _ hk => hk) ?_ ?_ (Or.inl rfl)
  · intro j server hserver
    obtain ⟨old, hold, hkind, hbegan, hnew⟩ := getElem?_setPhase hserver
    refine ⟨old, hold, hkind, hbegan, fun k hk => ?_⟩
    rcases hnew with hsame | ⟨rfl, hset⟩
    · exact Or.inl (hsame ▸ hk)
    · rw [hset] at hk
      rcases hphase k hk with hout | ⟨server', hserver', hsignal⟩
      · exact Or.inr (h.outstanding k hout)
      · have hsame : server' = old := Option.some.inj (hserver'.symm.trans hold)
        exact Or.inl (hsame ▸ hsignal)
  · rintro k (hstored | ⟨j, server, hserver, hnotified⟩)
    · exact h.outstanding k (Or.inl (hcell k hstored))
    · obtain ⟨old, hold, -, -, hsame | ⟨-, hset⟩⟩ := getElem?_setPhase hserver
      · exact h.outstanding k (Or.inr ⟨j, old, hold, hsame ▸ hnotified⟩)
      · exact absurd (hset.symm.trans hnotified) (htaken k)

/-- A server takes only signals that are outstanding, and waits for later ones. -/
theorem timely_poll (h : self.Timely) {i : ℕ} (hstep : self.poll i = some next) : next.Timely := by
  unfold poll at hstep
  split at hstep
  · have hfst := Notify.wait_fst i self.shutdown
    have hafter := Notify.stored_wait i self.shutdown
    split at hstep <;> rename_i hwait <;> rw [hwait] at hfst hafter <;>
      obtain rfl := Option.some.inj hstep
    · rename_i k cell
      refine timely_setPhase h i (.draining k) cell ?_ ?_ (by simp)
      · intro k' hk'
        exact absurd (hafter.symm.trans hk') (by simp)
      · intro k' hk'
        obtain rfl := Option.some.inj hk'
        exact Or.inl (Or.inl hfst.symm)
    · rename_i cell
      refine timely_setPhase h i .waiting cell ?_ (fun k' hk' => by contradiction) (by simp)
      intro k' hk'
      exact absurd (hafter.symm.trans hk') (by simp)
  · rename_i k hphase
    obtain rfl := Option.some.inj hstep
    obtain ⟨server, hserver, hnotified⟩ := Option.map_eq_some_iff.mp hphase
    refine timely_setPhase h i (.draining k) self.shutdown (fun _ hk => hk) ?_ (by simp)
    intro k' hk'
    obtain rfl := Option.some.inj hk'
    exact Or.inl (Or.inr ⟨i, server, hserver, hnotified⟩)
  · contradiction

/-- A server that ends by itself passes on only a signal that was outstanding. -/
theorem timely_fail (h : self.Timely) {i : ℕ} (hstep : self.fail i = some next) : next.Timely := by
  have hended : ∀ cell : Notify ℕ ℕ, (∀ k, cell.stored = some k → self.shutdown.stored = some k) →
      (setPhase i (.finished none) { self with shutdown := cell }).Timely := fun cell hcell =>
    timely_setPhase h i _ cell hcell (fun k hk => by contradiction) (by simp)
  unfold fail at hstep
  split at hstep
  · obtain rfl := Option.some.inj hstep
    exact hended self.shutdown fun _ hk => hk
  · obtain rfl := Option.some.inj hstep
    exact hended (self.shutdown.leave i) fun k hk => by rwa [Notify.stored_leave] at hk
  · rename_i k hphase
    obtain rfl := Option.some.inj hstep
    obtain ⟨server, hserver, hnotified⟩ := Option.map_eq_some_iff.mp hphase
    obtain ⟨hlt, hall⟩ := h.outstanding k (Or.inr ⟨i, server, hserver, hnotified⟩)
    refine timely_signal (hended self.shutdown fun _ hk => hk) ⟨hlt, fun j server' hserver' => ?_⟩
    obtain ⟨old, hold, -, hbegan, -⟩ := getElem?_setPhase hserver'
    rw [hbegan]
    exact hall j old hold
  · contradiction

/-- `start` begins a server only if there is no thread, and only once it has bound its port. -/
theorem timely_start (h : self.Timely) {binds : Bool} (hidle : self.call = .idle)
    (hmeets : self.meets (.start binds) = true) : (self.start binds).Timely := by
  unfold start
  split
  · exact h
  · rename_i hthread
    split
    · rename_i hbinds
      rw [hbinds, meets, hthread] at hmeets
      exact timely_begin h .background hidle hmeets _ (Or.inr ⟨rfl, hthread⟩)
    · exact h

/-- The signal of a `stop` is followed by taking the thread. -/
theorem timely_notifyOne (h : self.Timely) {k : ℕ} (hcall : self.call = .stopping k) :
    (self.signal k).takeThread.Timely := by
  have hsignal := timely_signal h (h.stopping k hcall)
  refine timely_takeThread hsignal (hsignal.stopping k ?_)
  rwa [call_signal]

/-- A server that has drained keeps the signal it had taken. -/
theorem timely_drained (h : self.Timely) {i k : ℕ} {server : Server}
    (hserver : self.servers[i]? = some server) (hdraining : server.phase = .draining k) :
    (self.setPhase i (.finished (some k))).Timely := by
  refine timely_setPhase h i _ self.shutdown (fun _ hk => hk) ?_ (by simp)
  intro k' hk'
  obtain rfl : k = k' := Option.some.inj hk'
  exact Or.inr ⟨server, hserver, by rw [hdraining]; rfl⟩

/-- Every step that meets the condition keeps signals timely. -/
theorem timely_step (h : self.Timely) {event : Event} (hmeets : self.meets event = true)
    (hstep : self.step event = some next) : next.Timely := by
  cases event with
  | start binds =>
    obtain ⟨hidle, rfl⟩ := Option.ite_none_right_eq_some.mp hstep |>.imp_right Option.some.inj
    exact timely_start h hidle hmeets
  | serveBlocking binds =>
    obtain ⟨hidle, rfl⟩ := Option.ite_none_right_eq_some.mp hstep |>.imp_right Option.some.inj
    split
    · rename_i hbinds
      rw [hbinds, meets] at hmeets
      exact timely_begin h .blocking hidle hmeets self.thread (Or.inl ⟨rfl, rfl⟩)
    · exact h
  | stop =>
    obtain ⟨hidle, rfl⟩ := Option.ite_none_right_eq_some.mp hstep |>.imp_right Option.some.inj
    exact timely_stop h hidle
  | notifyOne =>
    simp only [step] at hstep
    split at hstep
    · rename_i k hcall
      obtain rfl := Option.some.inj hstep
      exact timely_notifyOne h hcall
    · contradiction
  | join =>
    simp only [step] at hstep
    split at hstep
    · obtain ⟨-, rfl⟩ := Option.ite_none_right_eq_some.mp hstep |>.imp_right Option.some.inj
      exact timely_of_update h rfl (fun k hk => by contradiction)
        (fun i server hserver => ⟨server, hserver, rfl, rfl, fun _ hk => Or.inl hk⟩)
        h.outstanding (Or.inl rfl)
    · contradiction
  | poll i => exact timely_poll h hstep
  | fail i => exact timely_fail h hstep
  | drained i =>
    simp only [step] at hstep
    split at hstep
    · rename_i k hphase
      obtain rfl := Option.some.inj hstep
      obtain ⟨server, hserver, hdraining⟩ := Option.map_eq_some_iff.mp hphase
      exact timely_drained h hserver hdraining
    · contradiction

/-- So does every run whose steps all meet it. -/
theorem timely_run {events : List Event} (h : self.Timely) (hmeets : allMeet events self = true)
    (hrun : run events self = some next) : next.Timely := by
  induction events generalizing self with
  | nil =>
    obtain rfl := Option.some.inj hrun
    exact h
  | cons event events ih =>
    obtain ⟨middle, hstep, hrest⟩ := Option.bind_eq_some_iff.mp hrun
    rw [allMeet, hstep, Bool.and_eq_true] at hmeets
    exact ih (timely_step h hmeets.1 hstep) hmeets.2 hrest

/-! ## What a server can rely on -/

/-- A server shuts down only by a `stop` that was called after it began, or ends by itself; until
then a background server is reported as running. -/
structure Undisturbed (gateway : Gateway) : Prop where
  stopped_after : ∀ (i : ℕ) (server : Server), gateway.servers[i]? = some server →
    ∀ k, server.phase = .draining k ∨ server.phase = .finished (some k) →
      server.began ≤ k ∧ k < gateway.stops
  running : ∀ (i : ℕ) (server : Server), gateway.servers[i]? = some server →
    server.kind = .background → server.began = gateway.stops → server.phase ≠ .finished none →
      gateway.thread = some i ∧ gateway.isRunning = true

theorem Timely.undisturbed (h : self.Timely) : self.Undisturbed where
  stopped_after i server hserver k hphase := by
    apply h.reached i server hserver k
    rcases hphase with hphase | hphase <;> rw [hphase] <;> rfl
  running i server hserver hkind hbegan halive := by
    have hthread := h.thread_eq i server hserver hkind hbegan
    refine ⟨hthread, ?_⟩
    rw [isRunning, hthread]
    simp only [isFinished, hserver, Option.any_some, Bool.not_eq_true']
    cases hphase : server.phase with
    | finished signal =>
      cases signal with
      | none => exact absurd hphase halive
      | some k =>
        have hreached := h.reached i server hserver k (by rw [hphase]; rfl)
        omega
    | _ => rfl

/-- In a run whose signals are all sent to a running server, and taken before the next server
begins, no server is shut down by a `stop` that came before it. A `stop` that finds the thread ended
changes nothing else. -/
theorem undisturbed_of_allMeet {events : List Event} (hrun : run events new = some self)
    (hmeets : allMeet events new = true) :
    self.Undisturbed ∧
      ∀ i, self.thread = some i → self.isFinished i = true →
        self.stop = { self with thread := none, stops := self.stops + 1 } := by
  refine ⟨(timely_run timely_new hmeets hrun).undisturbed, fun i hthread hfinished => ?_⟩
  rw [stop, hthread]
  exact if_pos hfinished

/-- For example a server that is stopped, and the next one that ends by itself. -/
theorem undisturbed_of_allMeet_twice : ∃ gateway : Gateway,
    run [.start true, .poll 0, .stop, .notifyOne, .poll 0, .drained 0, .join, .start true, .fail 1]
        new = some gateway ∧
      gateway.Undisturbed ∧ gateway.stop = { gateway with thread := none, stops := 2 } := by
  obtain ⟨hundisturbed, hstop⟩ := @undisturbed_of_allMeet _
    [.start true, .poll 0, .stop, .notifyOne, .poll 0, .drained 0, .join, .start true, .fail 1]
    rfl (by decide)
  exact ⟨_, rfl, hundisturbed, hstop 1 rfl rfl⟩

/-- A `stop` before anything runs shuts down the server that begins next. -/
theorem undisturbed_stop_first : ∃ gateway : Gateway,
    run [.stop, .notifyOne, .start true, .poll 0, .drained 0] new = some gateway ∧
      gateway.isRunning = false ∧ ¬ gateway.Undisturbed := by
  refine ⟨_, rfl, rfl, fun h => ?_⟩
  exact absurd (h.stopped_after 0 _ rfl 0 (Or.inr rfl)).1 (by decide)

end Gateway

end Python

end HdfsS3Gateway
