import Mathlib.Data.Nat.Notation
import Mathlib.Tactic.Basic
import Mathlib.Tactic.Cases

/-!
# A notification cell with one permit

The documented behaviour of a cell that wakes tasks one at a time. A notification wakes the task
that has waited longest. If none waits, one permit is stored, which the next task to wait takes at
once, whenever that is; a second permit is not stored. Each notification carries its source, so that
a permit and a wake tell where they come from.
-/

/-- A cell holds a permit, or the tasks that wait, longest first. -/
inductive Notify (W S : Type) where
  | permit (source : S)
  | waiting (tasks : List W)
  deriving DecidableEq, Repr

namespace Notify

variable {W S : Type}

/-- Nothing happened yet. -/
def new : Notify W S := .waiting []

/-- The source of the stored permit. -/
def stored : Notify W S → Option S
  | .permit source => some source
  | .waiting _ => none

/-- `notify_one`: the task that is woken, if one waits. -/
def notifyOne (source : S) : Notify W S → Option W × Notify W S
  | .permit old => (none, .permit old)
  | .waiting [] => (none, .permit source)
  | .waiting (task :: tasks) => (some task, .waiting tasks)

/-- The first poll of `notified()`: the source of the permit that the task takes, or the task waits
from now on. -/
def wait (task : W) : Notify W S → Option S × Notify W S
  | .permit source => (some source, .waiting [])
  | .waiting tasks => (none, .waiting (tasks ++ [task]))

/-- A task that waits is dropped. -/
def leave [DecidableEq W] (task : W) : Notify W S → Notify W S
  | .permit source => .permit source
  | .waiting tasks => .waiting (tasks.filter fun other => other ≠ task)

@[simp] theorem stored_new : (new : Notify W S).stored = none := rfl

/-- A permit is an old one or stems from the notification. -/
theorem stored_notifyOne {source s : S} {cell : Notify W S}
    (h : (cell.notifyOne source).2.stored = some s) : cell.stored = some s ∨ s = source := by
  cases cell with
  | permit old => exact Or.inl h
  | waiting tasks =>
    cases tasks with
    | nil => exact Or.inr (Option.some.inj h).symm
    | cons task tasks => contradiction

/-- A task that does not have to wait takes the permit. -/
theorem wait_fst (task : W) (cell : Notify W S) : (cell.wait task).1 = cell.stored := by
  cases cell <;> rfl

/-- After that no permit is left. -/
theorem stored_wait (task : W) (cell : Notify W S) : (cell.wait task).2.stored = none := by
  cases cell <;> rfl

/-- A task that leaves takes nothing with it. -/
@[simp] theorem stored_leave [DecidableEq W] (task : W) (cell : Notify W S) :
    (cell.leave task).stored = cell.stored := by
  cases cell <;> rfl

end Notify
