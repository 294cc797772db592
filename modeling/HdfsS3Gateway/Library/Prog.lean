import Mathlib.Data.Nat.Notation
import Mathlib.Tactic.Basic
import Mathlib.Logic.Basic

/-!
# Programs as trees of commands

A `Prog Cmd Resp α` issues commands from `Cmd`, receives a response of type `Resp c` for each
command `c`, and finally returns a value. What a command does is left to an interpretation:
`eval` answers every command from a fixed table, `handle` replaces each command by a program over
another signature, and the interleaving semantics of a pool of programs lives in its own file.

`Always` collects the commands a program can issue under any responses, and `Yields` the values
it can return. Both have one rule for sequencing, and that rule is all that later proofs use.
-/

namespace Interaction

/-- A program that issues commands and returns a value of type `α`. -/
inductive Prog (Cmd : Type) (Resp : Cmd → Type) (α : Type) : Type
  | ret (a : α)
  | call (c : Cmd) (k : Resp c → Prog Cmd Resp α)

namespace Prog

variable {Cmd : Type} {Resp : Cmd → Type} {α β : Type}

/-- Run the first program, then the continuation on its result. -/
def bind : Prog Cmd Resp α → (α → Prog Cmd Resp β) → Prog Cmd Resp β
  | ret a, f => f a
  | call c k, f => call c fun r => (k r).bind f

instance : Monad (Prog Cmd Resp) where
  pure := ret
  bind := bind

/-- Issue one command and return its response. -/
def perform (c : Cmd) : Prog Cmd Resp (Resp c) := call c ret

@[simp] theorem pure_eq_ret (a : α) : (pure a : Prog Cmd Resp α) = ret a := rfl

@[simp] theorem ret_bind (a : α) (f : α → Prog Cmd Resp β) : (ret a >>= f) = f a := rfl

@[simp] theorem call_bind (c : Cmd) (k : Resp c → Prog Cmd Resp α) (f : α → Prog Cmd Resp β) :
    (call c k >>= f) = call c fun r => k r >>= f := rfl

@[simp] theorem perform_bind (c : Cmd) (f : Resp c → Prog Cmd Resp β) :
    (perform c >>= f) = call c f := rfl

/-- Sequencing with the trivial continuation changes nothing. -/
theorem bind_ret (p : Prog Cmd Resp α) : (p >>= ret) = p := by
  induction p with
  | ret a => rfl
  | call c k ih => rw [call_bind, funext ih]

/-- Sequencing is associative. -/
theorem bind_assoc {γ : Type} (p : Prog Cmd Resp α) (f : α → Prog Cmd Resp β)
    (g : β → Prog Cmd Resp γ) : (p >>= f) >>= g = p >>= fun a => f a >>= g := by
  induction p with
  | ret a => rfl
  | call c k ih =>
    rw [call_bind, call_bind, call_bind]
    exact congrArg (call c) (funext ih)

instance : LawfulMonad (Prog Cmd Resp) :=
  LawfulMonad.mk' (Prog Cmd Resp) bind_ret (fun _ _ => rfl) bind_assoc

/-! ## Evaluation against a fixed table of responses -/

/-- Run a program whose every command is answered by the table. -/
def eval (oracle : (c : Cmd) → Resp c) : Prog Cmd Resp α → α
  | ret a => a
  | call c k => (k (oracle c)).eval oracle

/-- The commands issued while running against the table, in order. -/
def trace (oracle : (c : Cmd) → Resp c) : Prog Cmd Resp α → List Cmd
  | ret _ => []
  | call c k => c :: (k (oracle c)).trace oracle

section Eval

variable (oracle : (c : Cmd) → Resp c)

@[simp] theorem eval_ret (a : α) : (ret a : Prog Cmd Resp α).eval oracle = a := rfl

@[simp] theorem eval_call (c : Cmd) (k : Resp c → Prog Cmd Resp α) :
    (call c k).eval oracle = (k (oracle c)).eval oracle := rfl

@[simp] theorem eval_perform (c : Cmd) : (perform c : Prog Cmd Resp _).eval oracle = oracle c := rfl

/-- Evaluation runs a sequence one part after the other. -/
@[simp] theorem eval_bind (p : Prog Cmd Resp α) (f : α → Prog Cmd Resp β) :
    (p >>= f).eval oracle = (f (p.eval oracle)).eval oracle := by
  induction p with
  | ret a => rfl
  | call c k ih => exact ih (oracle c)

/-- Evaluation runs a program before what is done with its result. -/
@[simp] theorem eval_map (f : α → β) (p : Prog Cmd Resp α) :
    (f <$> p).eval oracle = f (p.eval oracle) := eval_bind oracle p fun a => ret (f a)

/-- The trace of a sequence is the trace of its parts, one after the other. -/
theorem trace_bind (p : Prog Cmd Resp α) (f : α → Prog Cmd Resp β) :
    (p >>= f).trace oracle = p.trace oracle ++ (f (p.eval oracle)).trace oracle := by
  induction p with
  | ret a => rfl
  | call c k ih => exact congrArg (List.cons c) (ih (oracle c))

end Eval

/-! ## Handlers -/

section Handle

variable {Cmd' : Type} {Resp' : Cmd' → Type}

/-- Replace every command by the handler's program over another signature. -/
def handle (h : (c : Cmd) → Prog Cmd' Resp' (Resp c)) : Prog Cmd Resp α → Prog Cmd' Resp' α
  | ret a => ret a
  | call c k => h c >>= fun r => (k r).handle h

@[simp] theorem handle_ret (h : (c : Cmd) → Prog Cmd' Resp' (Resp c)) (a : α) :
    (ret a : Prog Cmd Resp α).handle h = ret a := rfl

@[simp] theorem handle_call (h : (c : Cmd) → Prog Cmd' Resp' (Resp c)) (c : Cmd)
    (k : Resp c → Prog Cmd Resp α) : (call c k).handle h = h c >>= fun r => (k r).handle h := rfl

/-- Handling and then evaluating is evaluating against the handler's own results. -/
theorem eval_handle (h : (c : Cmd) → Prog Cmd' Resp' (Resp c)) (oracle : (c : Cmd') → Resp' c)
    (p : Prog Cmd Resp α) :
    (p.handle h).eval oracle = p.eval fun c => (h c).eval oracle := by
  induction p with
  | ret a => rfl
  | call c k ih =>
    rw [handle_call, eval_bind, eval_call]
    exact ih _

end Handle

/-! ## Commands and results under every response -/

/-- Every command the program can issue, under any responses, satisfies `P`. -/
def Always (P : Cmd → Prop) : Prog Cmd Resp α → Prop
  | ret _ => True
  | call c k => P c ∧ ∀ r, (k r).Always P

/-- The program can return `a` under some responses. -/
def Yields : Prog Cmd Resp α → α → Prop
  | ret b, a => b = a
  | call _ k, a => ∃ r, (k r).Yields a

@[simp] theorem always_ret (P : Cmd → Prop) (a : α) : (ret a : Prog Cmd Resp α).Always P := trivial

@[simp] theorem always_call (P : Cmd → Prop) (c : Cmd) (k : Resp c → Prog Cmd Resp α) :
    (call c k).Always P ↔ P c ∧ ∀ r, (k r).Always P := Iff.rfl

@[simp] theorem always_perform (P : Cmd → Prop) (c : Cmd) :
    (perform c : Prog Cmd Resp _).Always P ↔ P c :=
  ⟨And.left, fun h => ⟨h, fun _ => trivial⟩⟩

@[simp] theorem yields_ret (a b : α) : (ret b : Prog Cmd Resp α).Yields a ↔ b = a := Iff.rfl

@[simp] theorem yields_call (c : Cmd) (k : Resp c → Prog Cmd Resp α) (a : α) :
    (call c k).Yields a ↔ ∃ r, (k r).Yields a := Iff.rfl

/-- Every program issues commands only. -/
theorem always_true (p : Prog Cmd Resp α) : p.Always fun _ => True := by
  induction p with
  | ret a => trivial
  | call c k ih => exact ⟨trivial, ih⟩

/-- A sequence issues good commands if its first part does, and its continuation does on every
result the first part can return. -/
theorem always_bind {P : Cmd → Prop} {p : Prog Cmd Resp α} {f : α → Prog Cmd Resp β}
    (hp : p.Always P) (hf : ∀ a, p.Yields a → (f a).Always P) : (p >>= f).Always P := by
  induction p with
  | ret a => exact hf a rfl
  | call c k ih => exact ⟨hp.1, fun r => ih r (hp.2 r) fun a ha => hf a ⟨r, ha⟩⟩

/-- A result of a sequence comes from a result of its first part. -/
theorem yields_bind (p : Prog Cmd Resp α) (f : α → Prog Cmd Resp β) (b : β) :
    (p >>= f).Yields b ↔ ∃ a, p.Yields a ∧ (f a).Yields b := by
  induction p with
  | ret a => exact ⟨fun h => ⟨a, rfl, h⟩, fun ⟨_, rfl, h⟩ => h⟩
  | call c k ih =>
    constructor
    · rintro ⟨r, hr⟩
      obtain ⟨a, ha, hb⟩ := (ih r).mp hr
      exact ⟨a, ⟨r, ha⟩, hb⟩
    · rintro ⟨a, ⟨r, ha⟩, hb⟩
      exact ⟨r, (ih r).mpr ⟨a, ha, hb⟩⟩

/-- Running against a table gives one of the results that the program can return. -/
theorem yields_eval (oracle : (c : Cmd) → Resp c) (p : Prog Cmd Resp α) :
    p.Yields (p.eval oracle) := by
  induction p with
  | ret a => rfl
  | call c k ih => exact ⟨oracle c, ih _⟩

/-- Handlers that issue only good commands keep a handled program good. -/
theorem always_handle {Cmd' : Type} {Resp' : Cmd' → Type} {P : Cmd → Prop} {P' : Cmd' → Prop}
    {h : (c : Cmd) → Prog Cmd' Resp' (Resp c)} (hh : ∀ c, P c → (h c).Always P')
    (p : Prog Cmd Resp α) (hp : p.Always P) : (p.handle h).Always P' := by
  induction p with
  | ret a => trivial
  | call c k ih => exact always_bind (hh c hp.1) fun r _ => ih r (hp.2 r)

end Prog

end Interaction
