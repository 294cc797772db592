import HdfsS3Gateway.Library.Interleaving
import HdfsS3Gateway.S3.Gateway

/-!
# The world that concurrent requests share

The caches, the clock and the state of HDFS, with a log of the commands executed so far. A cache
command acts on the caches at the current instant. A call to HDFS is answered by whatever the
behaviour of HDFS allows in its current state. The clock advances and HDFS changes between any two
commands.

What HDFS can do is a parameter: a fixed namespace, a history of versions, or anything at all. The
lemmas here say what one command does to the entries of the caches, which is all the later
invariants need.
-/

namespace HdfsS3Gateway

open Interaction

/-- An executed command: which request, when, and what it returned. -/
structure Event where
  tid : ℕ
  time : ℕ
  cmd : Cmd
  resp : cmd.Resp
  deriving DecidableEq

namespace Event

/-- The event inserts this value under this path. -/
def Inserts (e : Event) (name : CacheName) (path : Str) (value : name.Value) : Prop :=
  ∃ weight, e = ⟨e.tid, e.time, .cacheInsert name path value weight, ()⟩

/-- The event is a lookup of this path that finds this value. -/
def Hits (e : Event) (name : CacheName) (path : Str) (value : name.Value) : Prop :=
  e = ⟨e.tid, e.time, .cacheGet name path, some value⟩

/-- The event removes this path. -/
def Removes (e : Event) (name : CacheName) (path : Str) : Prop := e.cmd = .cacheRemove name path

/-- The event is the reply of HDFS to this call. -/
def Replies (e : Event) (u : Upstream) (r : u.Reply) : Prop := e = ⟨e.tid, e.time, .upstream u, r⟩

end Event

/-- The shared state and the log of the run. -/
structure World (crates : Crates) (H : Type) where
  caches : Caches crates.lru
  now : ℕ
  hdfs : H
  log : List Event

/-- How HDFS answers a call in a given state, and how its state changes on its own. -/
structure Hdfs (H : Type) where
  answer : H → (u : Upstream) → u.Reply → Prop
  change : H → H → Prop

variable {crates : Crates} {H : Type}

/-- An HDFS that never changes, and answers by a function. -/
def Hdfs.fixed (reply : (u : Upstream) → u.Reply) : Hdfs Unit where
  answer _ u r := r = reply u
  change _ _ := False

/-- A gateway for the whole of HDFS as the bucket `b`, with the default caches enabled and the crates
as they are documented. -/
def HdfsGateway.reference : HdfsGateway :=
  .new .reference { hdfsRoot := [slash], bucketName := [0x62], cache := { enabled := true } }

namespace World

/-- Nothing cached and nothing executed. -/
def init (crates : Crates) (config : CacheConfig) (now : ℕ) (hdfs : H) : World crates H where
  caches := Caches.new crates.lru config
  now := now
  hdfs := hdfs
  log := []

/-- Note an executed command. -/
def record (w : World crates H) (tid : ℕ) (cmd : Cmd) (resp : cmd.Resp) : World crates H :=
  { w with log := w.log ++ [⟨tid, w.now, cmd, resp⟩] }

/-- The caches after a command. -/
def cachesAfter (w : World crates H) : Cmd → Caches crates.lru
  | .cacheGet name path => (w.caches.get crates.usizeMax w.now name path).2
  | .cacheInsert name path value weight =>
    w.caches.insert crates.usizeMax w.now name path value weight
  | .cacheRemove name path => w.caches.remove crates.usizeMax name path
  | .upstream _ => w.caches

/-- A command can return this response. -/
def Answers (hdfs : Hdfs H) (w : World crates H) : (c : Cmd) → c.Resp → Prop
  | .cacheGet name path, r => r = (w.caches.get crates.usizeMax w.now name path).1
  | .cacheInsert _ _ _ _, _ | .cacheRemove _ _, _ => True
  | .upstream u, r => hdfs.answer w.hdfs u r

/-- Executing a command. -/
def Exec (hdfs : Hdfs H) (tid : ℕ) (w : World crates H) (c : Cmd) (r : c.Resp)
    (w' : World crates H) : Prop :=
  w.Answers hdfs c r ∧ w' = { w with caches := w.cachesAfter c }.record tid c r

/-- Execute a command when HDFS answers by a function of its state. -/
def step (reply : H → (u : Upstream) → u.Reply) (tid : ℕ) (w : World crates H) (c : Cmd) :
    c.Resp × World crates H :=
  let r : c.Resp := match c with
    | .cacheGet name path => (w.caches.get crates.usizeMax w.now name path).1
    | .cacheInsert _ _ _ _ | .cacheRemove _ _ => ()
    | .upstream u => reply w.hdfs u
  (r, { w with caches := w.cachesAfter c }.record tid c r)

/-- The clock advances or HDFS changes. -/
def Outside (hdfs : Hdfs H) (w w' : World crates H) : Prop :=
  (∃ d, w' = { w with now := w.now + d }) ∨ ∃ h, hdfs.change w.hdfs h ∧ w' = { w with hdfs := h }

end World

/-- The commands of the gateway over a behaviour of HDFS. -/
def gatewayMachine (crates : Crates) (hdfs : Hdfs H) : Machine Cmd Cmd.Resp (World crates H) where
  exec := World.Exec hdfs
  outside := World.Outside hdfs

/-- The states that any interleaving of requests, clock advances and HDFS changes can reach. -/
abbrev HdfsGateway.Reachable (self : HdfsGateway) (hdfs : Hdfs H) (now : ℕ) (start : H) :
    Pool Cmd Cmd.Resp (World self.crates H) S3Request Response → Prop :=
  Pool.Reachable (gatewayMachine self.crates hdfs) self.serve
    (World.init self.crates self.config.cache now start)

namespace World

variable {hdfs : Hdfs H} {tid : ℕ} {w w' : World crates H} {c : Cmd} {r : c.Resp}

/-- A command changes neither the clock nor HDFS, and is noted in the log. -/
theorem Exec.frame (h : w.Exec hdfs tid c r w') :
    w'.now = w.now ∧ w'.hdfs = w.hdfs ∧ w'.log = w.log ++ [⟨tid, w.now, c, r⟩] := by
  obtain ⟨-, rfl⟩ := h
  exact ⟨rfl, rfl, rfl⟩

/-- A function that HDFS can answer by gives executions. -/
theorem exec_step {reply : H → (u : Upstream) → u.Reply}
    (h : ∀ d u, hdfs.answer d u (reply d u)) (w : World crates H) (c : Cmd) :
    w.Exec hdfs tid c (w.step reply tid c).1 (w.step reply tid c).2 := by
  refine ⟨?_, rfl⟩
  cases c with
  | cacheGet => rfl
  | cacheInsert | cacheRemove => trivial
  | upstream u => exact h w.hdfs u

/-- The caches after an executed command. -/
theorem Exec.caches (h : w.Exec hdfs tid c r w') : w'.caches = w.cachesAfter c := by
  obtain ⟨-, rfl⟩ := h
  rfl

/-- What is held after a command is what it inserted, stamped now, or was held before and not
removed by it. -/
theorem holds_cachesAfter {name : CacheName} {path : Str} {value : name.Value} {t : ℕ}
    (h : (w.cachesAfter c).Holds name path value t) :
    (∃ weight, c = .cacheInsert name path value weight ∧ t = w.now) ∨
      (w.caches.Holds name path value t ∧ c ≠ .cacheRemove name path) := by
  cases c with
  | cacheGet name' path' => exact Or.inr ⟨Caches.holds_of_get h, by simp⟩
  | upstream u => exact Or.inr ⟨h, by simp⟩
  | cacheRemove name' path' =>
    obtain ⟨hold, hne⟩ := Caches.holds_of_remove h
    refine Or.inr ⟨hold, fun heq => hne ?_⟩
    obtain ⟨rfl, rfl⟩ := Cmd.cacheRemove.inj heq
    exact ⟨rfl, rfl⟩
  | cacheInsert name' path' value' weight =>
    rcases Caches.holds_of_insert h with ⟨rfl, rfl, rfl, rfl⟩ | hold
    · exact Or.inl ⟨weight, rfl, rfl⟩
    · exact Or.inr ⟨hold, by simp⟩

/-- The TTLs do not change. -/
theorem hasTtl_cachesAfter {ttlOf : CacheName → ℕ} (h : w.caches.HasTtl ttlOf) :
    (w.cachesAfter c).HasTtl ttlOf := by
  cases c with
  | cacheGet => exact h.get
  | cacheInsert => exact h.insert
  | cacheRemove => exact h.remove
  | upstream => exact h

/-- A hit is an entry younger than the TTL. -/
theorem Exec.hit {name : CacheName} {path : Str} {value : name.Value}
    (h : w.Exec hdfs tid (.cacheGet name path) (some value) w') :
    ∃ t, w.caches.Holds name path value t ∧ w.now - t < (w.caches.cache name).ttl :=
  Caches.get_hit h.1.symm

end World

namespace HdfsGateway

variable {self : HdfsGateway} {hdfs : Hdfs H} {now : ℕ} {h : H}
  {s : Pool Cmd Cmd.Resp (World self.crates H) S3Request Response}

/-- A request may arrive at any time. -/
theorem Reachable.start (hs : self.Reachable hdfs now h s) (req : S3Request) :
    self.Reachable hdfs now h (s.start self.serve req) := .step hs (.start _ _ req)

/-- A request may move on by any number of commands, while HDFS answers by a function. -/
theorem Reachable.moves (hs : self.Reachable hdfs now h s) (reply : H → (u : Upstream) → u.Reply)
    (hreply : ∀ d u, hdfs.answer d u (reply d u)) (tid count : ℕ) :
    self.Reachable hdfs now h ((Pool.move (World.step reply) tid)^[count] s) :=
  Pool.Reachable.moves (fun _ => World.exec_step hreply) tid count hs

/-- Time may pass. -/
theorem Reachable.wait (hs : self.Reachable hdfs now h s) (d : ℕ) :
    self.Reachable hdfs now h ⟨{ s.world with now := s.world.now + d }, s.tasks⟩ :=
  .step hs (.outside _ (.inl ⟨d, rfl⟩))

/-- HDFS may change. -/
theorem Reachable.change (hs : self.Reachable hdfs now h s) {d : H}
    (hchange : hdfs.change s.world.hdfs d) :
    self.Reachable hdfs now h ⟨{ s.world with hdfs := d }, s.tasks⟩ :=
  .step hs (.outside _ (.inr ⟨d, hchange, rfl⟩))

/-- Requests do not change HDFS. -/
theorem hdfs_moves (reply : H → (u : Upstream) → u.Reply) (tid count : ℕ)
    (s : Pool Cmd Cmd.Resp (World self.crates H) S3Request Response) :
    ((Pool.move (World.step reply) tid)^[count] s).world.hdfs = s.world.hdfs := by
  induction count generalizing s with
  | zero => rfl
  | succ count ih =>
    rw [Function.iterate_succ_apply, ih]
    unfold Pool.move
    split <;> rfl

end HdfsGateway

end HdfsS3Gateway
