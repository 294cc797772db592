import HdfsS3Gateway.S3.BlockMaps
import HdfsS3Gateway.S3.Calls
import HdfsS3Gateway.S3.Staleness

/-!
# What a failed read leaves in the caches

A GET can fail in four ways once it has started to open its reader: the opening fails, the reader is
too short for the window, the range stream yields an error, or it ends before the declared length.
The first three leave neither metadata nor a block map under the path, so the next request stats and
opens the file again. The last one evicts nothing: the error is made where the length is enforced,
above the stream that evicts, and the next request reads through the same cached reader again.

Others may insert under the path meanwhile. So the statement is about a cache into which nobody else
has inserted under the path since the request looked for its block map.
-/

namespace HdfsS3Gateway

open Interaction History

/-! ## Events -/

namespace Event

/-- The event inserts something under this path. -/
def Stores (e : Event) (name : CacheName) (path : Str) : Prop := ∃ value, e.Inserts name path value

/-- The event is the lookup of the block map, with which a request starts to open a reader. -/
def Opens (e : Event) (tid : ℕ) (path : Str) : Prop :=
  e.tid = tid ∧ e.cmd = .cacheGet .blocks path

end Event

/-- The request started to open its reader, and since then no other request has inserted anything
into the named cache under the path. -/
def OpenedAlone (tid : ℕ) (name : CacheName) (path : Str) (log : List Event) : Prop :=
  Since (fun r => r.tid = tid ∨ ¬ r.Stores name path) (fun e => e.Opens tid path) log

/-- The range stream of the request yielded an error. -/
def StreamFails (tid : ℕ) (log : List Event) : Prop :=
  ∃ reader start len position err,
    HdfsGateway.Answered tid (.pollRange reader start len position) (some (.error err)) log

namespace World

variable {crates : Crates} {H : Type} {hdfs : Hdfs H} {tid : ℕ} {w w' : World crates H} {c : Cmd}
  {r : c.Resp} {name : CacheName} {path : Str}

/-- The named cache holds nothing under the path. -/
def Clear (w : World crates H) (name : CacheName) (path : Str) : Prop :=
  ∀ value t, ¬ w.caches.Holds name path value t

/-- Only an insertion fills a cache. -/
theorem Clear.exec (h : w.Clear name path) (hexec : w.Exec hdfs tid c r w')
    (hc : ∀ value weight, c ≠ .cacheInsert name path value weight) : w'.Clear name path := by
  intro value t hheld
  rw [hexec.caches] at hheld
  rcases holds_cachesAfter hheld with ⟨weight, heq, -⟩ | ⟨hold, -⟩
  · exact hc value weight heq
  · exact h value t hold

end World

/-! ## What the others leave alone -/

namespace HdfsGateway

/-- A request sees only others append to the log between its own commands, and a cache without an
entry under a path stays without one until somebody inserts one. -/
def evicting (self : HdfsGateway) {H : Type} (hdfs : Hdfs H) :
    Rely (gatewayMachine self.crates hdfs) where
  inv w := w.caches.Enabled
  later tid w w' := ∃ added, w'.log = w.log ++ added ∧ (∀ r ∈ added, r.tid ≠ tid) ∧
    ∀ name path, (∀ r ∈ added, ¬ r.Stores name path) → w.Clear name path → w'.Clear name path
  refl _ w := ⟨[], by simp, by simp, fun _ _ _ h => h⟩
  trans := by
    intro tid a b c hab hbc
    obtain ⟨x, hb, hx, hxclear⟩ := hab
    obtain ⟨y, hc, hy, hyclear⟩ := hbc
    refine ⟨x ++ y, by rw [hc, hb, List.append_assoc], fun r hr => ?_, fun name path hxy h => ?_⟩
    · rcases List.mem_append.mp hr with hr | hr
      · exact hx r hr
      · exact hy r hr
    · apply hyclear name path fun r hr => hxy r (List.mem_append_right _ hr)
      exact hxclear name path (fun r hr => hxy r (List.mem_append_left _ hr)) h
  outside := by
    intro w w' hinv hout
    rcases hout with ⟨d, rfl⟩ | ⟨_, -, rfl⟩
    · exact ⟨hinv, fun _ => ⟨[], (List.append_nil _).symm, by simp, fun _ _ _ h => h⟩⟩
    · exact ⟨hinv, fun _ => ⟨[], (List.append_nil _).symm, by simp, fun _ _ _ h => h⟩⟩

variable {self : HdfsGateway} {H : Type} {hdfs : Hdfs H} {tid : ℕ} {w w' : World self.crates H}
  {α : Type} {path : Str} {name : CacheName}

/-- Once the request has started to open its reader, and unless others insert, the named cache holds
nothing under the path. -/
def Forgets (tid : ℕ) (name : CacheName) (path : Str) (w : World self.crates H) : Prop :=
  OpenedAlone tid name path w.log → w.Clear name path

/-- What is forgotten stays forgotten when others have moved on. -/
theorem Forgets.later (h : Forgets tid name path w) (hle : (self.evicting hdfs).later tid w w') :
    Forgets tid name path w' := by
  obtain ⟨added, hlog, hadded, hclear⟩ := hle
  intro hopened
  unfold OpenedAlone at hopened
  rw [hlog] at hopened
  obtain ⟨hbefore, hothers⟩ := hopened.of_append fun r hr hopens => hadded r hr hopens.1
  apply hclear name path _ (h hbefore)
  exact fun r hr => (hothers r hr).resolve_left (hadded r hr)

/-- The request itself keeps it forgotten, unless it inserts or opens. -/
theorem Forgets.exec {c : Cmd} {r : c.Resp} (h : Forgets tid name path w)
    (hexec : w.Exec hdfs tid c r w') (hopen : c ≠ .cacheGet .blocks path)
    (hinsert : ∀ value weight, c ≠ .cacheInsert name path value weight) :
    Forgets tid name path w' := by
  intro hopened
  unfold OpenedAlone at hopened
  rw [hexec.frame.2.2] at hopened
  have hbefore := (hopened.of_append fun e he hopens => by
    rw [List.mem_singleton.mp he] at hopens
    exact hopen hopens.2).1
  exact (h hbefore).exec hexec hinsert

/-- Neither the metadata nor the block map of the path is remembered. -/
def Forgotten (tid : ℕ) (path : Str) (w : World self.crates H) : Prop :=
  Forgets tid .metadata path w ∧ Forgets tid .blocks path w

theorem Forgotten.later (h : Forgotten tid path w) (hle : (self.evicting hdfs).later tid w w') :
    Forgotten tid path w' := ⟨h.1.later hle, h.2.later hle⟩

/-- Removals and calls to HDFS keep it so. -/
theorem Forgotten.exec {c : Cmd} {r : c.Resp} (h : Forgotten tid path w)
    (hexec : w.Exec hdfs tid c r w') (hopen : c ≠ .cacheGet .blocks path)
    (hinsert : ∀ name path value weight, c ≠ .cacheInsert name path value weight) :
    Forgotten tid path w' :=
  ⟨h.1.exec hexec hopen (hinsert _ _), h.2.exec hexec hopen (hinsert _ _)⟩

/-! ## Opening a reader -/

/-- A reply stays in the log. -/
theorem Answered.append {u : Upstream} {r : u.Reply} {log : List Event} (h : Answered tid u r log)
    (added : List Event) : Answered tid u r (log ++ added) := by
  obtain ⟨e, he, hreply⟩ := h
  exact ⟨e, List.mem_append_left _ he, hreply⟩

/-- If the range stream of the request has failed, the path is forgotten. -/
def Evicted (tid : ℕ) (path : Str) (w : World self.crates H) : Prop :=
  StreamFails tid w.log → Forgotten tid path w

/-- A stream has failed by a reply to the request itself. -/
theorem streamFails_of_append {log added : List Event} (h : StreamFails tid (log ++ added))
    (hadded : ∀ e ∈ added, e.tid = tid → ∀ reader start len position err,
      ¬ e.Replies (.pollRange reader start len position) (some (.error err))) :
    StreamFails tid log := by
  obtain ⟨reader, start, len, position, err, e, he, htid, hreply⟩ := h
  rcases List.mem_append.mp he with he | he
  · exact ⟨reader, start, len, position, err, e, he, htid, hreply⟩
  · exact absurd hreply (hadded e he htid _ _ _ _ _)

theorem Evicted.later (h : Evicted tid path w) (hle : (self.evicting hdfs).later tid w w') :
    Evicted tid path w' := by
  intro hfails
  have hle' := hle
  obtain ⟨added, hlog, hadded, -⟩ := hle'
  rw [hlog] at hfails
  have hbefore := streamFails_of_append hfails fun e he htid => absurd htid (hadded e he)
  exact (h hbefore).later hle

/-- A poll that gives no error keeps it so. -/
theorem Evicted.poll {reader : FileReader} {start len position : ℕ} {r : Option (Chunk HdfsError)}
    (h : Evicted tid path w)
    (hexec : w.Exec hdfs tid (.upstream (.pollRange reader start len position)) r w')
    (hr : ∀ err, r ≠ some (.error err)) : Evicted tid path w' := by
  intro hfails
  rw [hexec.frame.2.2] at hfails
  have hbefore := streamFails_of_append hfails fun e he _ reader' start' len' position' err hreply => by
    rw [List.mem_singleton.mp he] at hreply
    obtain ⟨-, -, hcmd, hresp⟩ := Event.mk.inj hreply
    obtain ⟨rfl, rfl, rfl, rfl⟩ := Upstream.pollRange.inj (Cmd.upstream.inj hcmd)
    exact hr err (eq_of_heq hresp)
  exact (h hbefore).exec hexec (by simp) (by simp)

end HdfsGateway

end HdfsS3Gateway
