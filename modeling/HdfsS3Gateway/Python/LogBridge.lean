import HdfsS3Gateway.Core.Tokens
import HdfsS3Gateway.Library.Lines
import Mathlib.Data.List.DropRight

/-!
# The bridge to Python's logging

With the target `python`, the threads of the server write their log into a channel, and one thread of
its own cuts the text into lines and calls `logger.info` for each. It tries to get hold of the
interpreter 50 times for each line, and then drops the line. When the last writer is gone it flushes
what is left and ends.

The steps of a run are the writes, the end of the last writer and the moves of the thread, in any order.
-/

namespace HdfsS3Gateway

namespace Python

/-- What the thread is about to do. -/
inductive Consumer where
  /-- `rx.recv()`. -/
  | receiving
  /-- `pending.find('\n')`. -/
  | scanning
  /-- `Python::try_attach` for a line, after so many failures; the last line is the flushed one. -/
  | emitting (line : Str) (failures : ℕ) (last : Bool)
  | ended
  deriving DecidableEq, Repr

/-- The channel and the thread that drains it, with the lines that `logger.info` was called for. -/
structure LogBridge where
  /-- Whether the logger could be resolved. -/
  logger : Bool
  channel : List Str
  /-- Whether there is a `PyLogger` left that can write. -/
  connected : Bool
  pending : Str
  consumer : Consumer
  logged : List Str
  deriving DecidableEq, Repr

/-- What can happen next. -/
inductive LogEvent where
  /-- `PyLogger::write`. -/
  | write (buf : List UInt8)
  /-- The last `PyLogger` is dropped. -/
  | disconnect
  /-- `rx.recv()` returns. -/
  | recv
  /-- The thread looks for the end of a line. -/
  | scan
  /-- `Python::try_attach` returns. -/
  | attach (attached : Bool)
  deriving DecidableEq, Repr

/-- The end of a line. -/
def newline : UInt8 := 10

/-- `line.trim_end_matches(['\r', '\n'])`. -/
def trimEnd (line : Str) : Str := line.rdropWhile fun c => c = 13 || c = newline

namespace LogBridge

/-- The bridge when its thread has looked for the logger. -/
def new (logger : Bool) : LogBridge where
  logger := logger
  channel := []
  connected := true
  pending := []
  consumer := .receiving
  logged := []

/-- What the thread does after a line. -/
def afterLine (last : Bool) : Consumer := if last then .ended else .scanning

/-- `emit_line`, up to its loop: an empty line and a line without a logger are done at once. -/
def emitLine (last : Bool) (line : Str) (self : LogBridge) : LogBridge :=
  if trimEnd line = [] then { self with consumer := afterLine last }
  else if self.logger then { self with consumer := .emitting (trimEnd line) 0 last }
  else { self with consumer := afterLine last }

/-- `write`: text is sent, anything else is ignored. -/
def write (buf : List UInt8) (self : LogBridge) : LogBridge :=
  match stringFromUtf8 buf with
  | some text => { self with channel := self.channel ++ [text] }
  | none => self

/-- A chunk is received, or the channel is closed and the trailing part is flushed; else the thread
waits. -/
def recv (self : LogBridge) : Option LogBridge :=
  match self.channel with
  | chunk :: channel =>
    some { self with channel, pending := self.pending ++ chunk, consumer := .scanning }
  | [] =>
    if self.connected then none
    else if self.pending = [] then some { self with consumer := .ended }
    else some (self.emitLine true self.pending)

/-- `pending.drain(..=idx)`, if there is the end of a line. -/
def scan (self : LogBridge) : LogBridge :=
  match self.pending.findIdx? (· = newline) with
  | some idx =>
    emitLine false (self.pending.take (idx + 1)) { self with pending := self.pending.drop (idx + 1) }
  | none => { self with consumer := .receiving }

/-- An attempt to call the logger; after 50 failures the line is dropped. -/
def attach (line : Str) (failures : ℕ) (last attached : Bool) (self : LogBridge) : LogBridge :=
  if attached then { self with logged := self.logged ++ [line], consumer := afterLine last }
  else if failures + 1 < 50 then { self with consumer := .emitting line (failures + 1) last }
  else { self with consumer := afterLine last }

/-- One step. -/
def step (self : LogBridge) : LogEvent → Option LogBridge
  | .write buf => if self.connected then some (self.write buf) else none
  | .disconnect => if self.connected then some { self with connected := false } else none
  | .recv => if self.consumer = .receiving then self.recv else none
  | .scan => if self.consumer = .scanning then some self.scan else none
  | .attach attached =>
    match self.consumer with
    | .emitting line failures last => some (self.attach line failures last attached)
    | _ => none

/-- The steps of a run, one after another. -/
def run : List LogEvent → LogBridge → Option LogBridge
  | [], self => some self
  | event :: events, self => (self.step event).bind (run events)

/-! ## Lines -/

/-- The text that an event writes. -/
def textOf : LogEvent → Option Str
  | .write buf => stringFromUtf8 buf
  | _ => none

/-- The texts that a run writes, in order. -/
def texts (events : List LogEvent) : List Str := events.filterMap textOf

/-- The attempts of a run that fail. -/
def failedAttempts (events : List LogEvent) : ℕ := events.count (.attach false)

/-- The lines to log among these: without their ends, and no empty ones. -/
def entries (lines : List Str) : List Str := (lines.map trimEnd).filter (· ≠ [])

/-- The lines to log of a text, with the trailing part. -/
def records (text : Str) : List Str :=
  entries ((Lines.split newline text).1 ++ [(Lines.split newline text).2])

@[simp] theorem entries_nil : entries [] = [] := rfl

theorem entries_append (lines more : List Str) : entries (lines ++ more) = entries lines ++ entries more := by
  rw [entries, List.map_append, List.filter_append]
  rfl

/-- Whole lines are logged by themselves, whatever follows. -/
theorem records_append {text : Str} (hwhole : (Lines.split newline text).2 = []) (more : Str) :
    records (text ++ more) = records text ++ records more := by
  have hempty : entries [[]] = [] := rfl
  rw [records, Lines.split_append, hwhole, List.nil_append, List.append_assoc, entries_append, records,
    records, hwhole, entries_append (Lines.split newline text).1 [[]], hempty, List.append_nil]

end LogBridge

end Python

end HdfsS3Gateway
