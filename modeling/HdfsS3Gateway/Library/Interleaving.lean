import HdfsS3Gateway.Library.Prog
import Mathlib.Logic.Function.Iterate

/-!
# Pools of programs over a shared world

Any number of programs run over one world. A step of the pool starts a new program, executes the
next command of one program, or changes the world from outside. Nothing forces a program to take
its next step, so a run may suspend or abandon any program forever.

The reasoning is by rely and guarantee. A `Rely` names a world invariant and, for each program, an
order "later" that the steps of the other programs and of the outside respect. `Prog.Ensures` is
the precondition of a program under that interference: it must keep the invariant and the orders of
the others at each of its own commands, in every later world. The run rule `Pool.Reachable.sound`
then gives the invariant and every program's postcondition in each reachable pool, from one
obligation per kind of program and one for the outside changes.
-/

namespace Interaction

variable {Cmd : Type} {Resp : Cmd → Type} {World Req Res : Type}

/-- What the commands and the outside do to a world. A command may be answered in several ways. -/
structure Machine (Cmd : Type) (Resp : Cmd → Type) (World : Type) where
  /-- Program number `tid` executes a command, gets a response and leaves a new world. -/
  exec : (tid : ℕ) → World → (c : Cmd) → Resp c → World → Prop
  /-- A change of the world that no program makes. -/
  outside : World → World → Prop

/-- A program in the pool: the request it serves and what is left of it. -/
structure Task (Cmd : Type) (Resp : Cmd → Type) (Req Res : Type) where
  request : Req
  rest : Prog Cmd Resp Res

/-- A world and the programs started so far, oldest first; a program keeps its number. -/
structure Pool (Cmd : Type) (Resp : Cmd → Type) (World Req Res : Type) where
  world : World
  tasks : List (Task Cmd Resp Req Res)

namespace Pool

/-- One step of the pool. -/
inductive Step (M : Machine Cmd Resp World) (program : Req → Prog Cmd Resp Res) :
    Pool Cmd Resp World Req Res → Pool Cmd Resp World Req Res → Prop
  | start (w tasks req) : Step M program ⟨w, tasks⟩ ⟨w, tasks ++ [⟨req, program req⟩]⟩
  | exec {w w' tasks tid req c k r} (htask : tasks[tid]? = some ⟨req, .call c k⟩)
      (hexec : M.exec tid w c r w') :
      Step M program ⟨w, tasks⟩ ⟨w', tasks.set tid ⟨req, k r⟩⟩
  | outside {w w'} (tasks) (hout : M.outside w w') : Step M program ⟨w, tasks⟩ ⟨w', tasks⟩

/-- The pools that a run can reach from an initial world with no program started. -/
inductive Reachable (M : Machine Cmd Resp World) (program : Req → Prog Cmd Resp Res)
    (init : World) : Pool Cmd Resp World Req Res → Prop
  | init : Reachable M program init ⟨init, []⟩
  | step {s s'} (hs : Reachable M program init s) (hstep : Step M program s s') :
      Reachable M program init s'

/-- The program started under this number has returned this result. -/
def Finished (s : Pool Cmd Resp World Req Res) (tid : ℕ) (req : Req) (res : Res) : Prop :=
  s.tasks[tid]? = some ⟨req, .ret res⟩

end Pool

/-- The runs in which every executed command meets a condition on the world before it. -/
def Machine.restrict (M : Machine Cmd Resp World) (allowed : World → (c : Cmd) → Resp c → Prop) :
    Machine Cmd Resp World where
  exec tid w c r w' := M.exec tid w c r w' ∧ allowed w c r
  outside := M.outside

/-- An invariant of the world and, for each program, an order on worlds that everything else
respects. -/
structure Rely (M : Machine Cmd Resp World) where
  inv : World → Prop
  later : (tid : ℕ) → World → World → Prop
  refl : ∀ tid w, later tid w w
  trans : ∀ {tid a b c}, later tid a b → later tid b c → later tid a c
  outside : ∀ {w w'}, inv w → M.outside w w' → inv w' ∧ ∀ tid, later tid w w'

namespace Prog

variable {α β : Type}

/-- Run a program alone on a world whose commands are a function of the world. -/
def runOn (exec : World → (c : Cmd) → Resp c × World) : Prog Cmd Resp α → World → α × World
  | ret a, w => (a, w)
  | call c k, w => (k (exec w c).1).runOn exec (exec w c).2

/-- If every command is answered from the table, so is the program. -/
theorem runOn_eq_eval {exec : World → (c : Cmd) → Resp c × World} (oracle : (c : Cmd) → Resp c)
    (I : World → Prop) (hexec : ∀ w c, I w → (exec w c).1 = oracle c ∧ I (exec w c).2)
    (p : Prog Cmd Resp α) {w : World} (hw : I w) : (p.runOn exec w).1 = p.eval oracle := by
  induction p generalizing w with
  | ret a => rfl
  | call c k ih =>
    obtain ⟨hr, hw'⟩ := hexec w c hw
    rw [eval_call, ← hr]
    exact ih _ hw'

variable {M : Machine Cmd Resp World}

/-- Started in `w`, program `tid` keeps the invariant and the orders of the others at each of its
commands, in whatever later world it executes them, and returns only results that satisfy `Q` from
then on. -/
def Ensures (R : Rely M) (tid : ℕ) : Prog Cmd Resp α → (World → α → Prop) → World → Prop
  | ret a, Q, w => ∀ w', R.later tid w w' → Q w' a
  | call c k, Q, w => ∀ w' r w'', R.later tid w w' → R.inv w' → M.exec tid w' c r w'' →
      R.inv w'' ∧ (∀ other, other ≠ tid → R.later other w' w'') ∧ (k r).Ensures R tid Q w''

variable {R : Rely M} {tid : ℕ}

/-- What a program ensures from a world it ensures from every later one. -/
theorem Ensures.mono_world {p : Prog Cmd Resp α} {Q : World → α → Prop} {w w' : World}
    (h : p.Ensures R tid Q w) (hle : R.later tid w w') : p.Ensures R tid Q w' := by
  cases p with
  | ret a => exact fun w'' hw => h w'' (R.trans hle hw)
  | call c k => exact fun v r v' hv => h v r v' (R.trans hle hv)

/-- The rule of consequence. -/
theorem Ensures.mono {p : Prog Cmd Resp α} {Q Q' : World → α → Prop} {w : World}
    (h : p.Ensures R tid Q w) (hQ : ∀ w' a, Q w' a → Q' w' a) : p.Ensures R tid Q' w := by
  induction p generalizing w with
  | ret a => exact fun w' hw => hQ w' a (h w' hw)
  | call c k ih =>
    intro v r v' hv hinv hexec
    obtain ⟨hinv', hle, hk⟩ := h v r v' hv hinv hexec
    exact ⟨hinv', hle, ih r hk⟩

/-- What a program returns satisfies its postcondition in every later world. -/
theorem Ensures.stable {p : Prog Cmd Resp α} {Q : World → α → Prop} {w : World}
    (h : p.Ensures R tid Q w) :
    p.Ensures R tid (fun w' a => ∀ w'', R.later tid w' w'' → Q w'' a) w := by
  induction p generalizing w with
  | ret a => exact fun w' hw w'' hw' => h w'' (R.trans hw hw')
  | call c k ih =>
    intro v r v' hv hinv hexec
    obtain ⟨hinv', hle, hk⟩ := h v r v' hv hinv hexec
    exact ⟨hinv', hle, ih r hk⟩

/-- Two postconditions may be established separately. -/
theorem Ensures.and {p : Prog Cmd Resp α} {Q Q' : World → α → Prop} {w : World}
    (h : p.Ensures R tid Q w) (h' : p.Ensures R tid Q' w) :
    p.Ensures R tid (fun w' a => Q w' a ∧ Q' w' a) w := by
  induction p generalizing w with
  | ret a => exact fun w' hw => ⟨h w' hw, h' w' hw⟩
  | call c k ih =>
    intro v r v' hv hinv hexec
    obtain ⟨hinv', hle, hk⟩ := h v r v' hv hinv hexec
    exact ⟨hinv', hle, ih r hk (h' v r v' hv hinv hexec).2.2⟩

/-- The frame rule: what neither the others nor the program's own commands can destroy still holds
in the end. -/
theorem Ensures.frame {p : Prog Cmd Resp α} {Q : World → α → Prop} {w : World} {F : World → Prop}
    (hstable : ∀ w w', R.later tid w w' → F w → F w')
    (hown : ∀ w c r w', M.exec tid w c r w' → F w → F w') (h : p.Ensures R tid Q w) (hF : F w) :
    p.Ensures R tid (fun w' a => Q w' a ∧ F w') w := by
  induction p generalizing w with
  | ret a => exact fun w' hw => ⟨h w' hw, hstable w w' hw hF⟩
  | call c k ih =>
    intro v r v' hv hinv hexec
    obtain ⟨hinv', hle, hk⟩ := h v r v' hv hinv hexec
    exact ⟨hinv', hle, ih r hk (hown v c r v' hexec (hstable w v hv hF))⟩

/-- The rule of sequencing. -/
theorem ensures_bind {p : Prog Cmd Resp α} {f : α → Prog Cmd Resp β} {Q : World → β → Prop}
    {w : World} (h : p.Ensures R tid (fun w' a => (f a).Ensures R tid Q w') w) :
    (p >>= f).Ensures R tid Q w := by
  induction p generalizing w with
  | ret a => exact h w (R.refl tid w)
  | call c k ih =>
    intro v r v' hv hinv hexec
    obtain ⟨hinv', hle, hk⟩ := h v r v' hv hinv hexec
    exact ⟨hinv', hle, ih r hk⟩

/-- The rule for a function of a program's result. -/
theorem ensures_map {p : Prog Cmd Resp α} {f : α → β} {Q : World → β → Prop} {w : World}
    (h : p.Ensures R tid (fun w' a => Q w' (f a)) w) : (f <$> p).Ensures R tid Q w := by
  induction p generalizing w with
  | ret a => exact h
  | call c k ih =>
    intro v r v' hv hinv hexec
    obtain ⟨hinv', hle, hk⟩ := h v r v' hv hinv hexec
    exact ⟨hinv', hle, ih r hk⟩

/-- The rule of one command: it keeps the invariant and the orders of the others, and establishes
the postcondition. -/
theorem ensures_perform {c : Cmd} {Q : World → Resp c → Prop} {w : World}
    (h : ∀ w' r w'', R.later tid w w' → R.inv w' → M.exec tid w' c r w'' →
      R.inv w'' ∧ (∀ other, other ≠ tid → R.later other w' w'') ∧
        ∀ v, R.later tid w'' v → Q v r) :
    (perform c : Prog Cmd Resp _).Ensures R tid Q w := h

end Prog

namespace Rely

variable {M : Machine Cmd Resp World} {R : Rely M} {α β : Type}

/-- Started in any world, the program keeps the invariant and the orders of the others. -/
def Keeps (R : Rely M) (p : Prog Cmd Resp α) : Prop :=
  ∀ tid w, p.Ensures R tid (fun _ _ => True) w

theorem keeps_pure (a : α) : R.Keeps (pure a : Prog Cmd Resp α) := fun _ _ _ _ => trivial

/-- A sequence of programs that keep the invariant keeps it. -/
theorem keeps_bind {p : Prog Cmd Resp α} {f : α → Prog Cmd Resp β} (hp : R.Keeps p)
    (hf : ∀ a, R.Keeps (f a)) : R.Keeps (p >>= f) := fun tid w =>
  Prog.ensures_bind ((hp tid w).mono fun w' a _ => hf a tid w')

/-- Handlers that keep the invariant make a program keep it. -/
theorem keeps_handle {Cmd' : Type} {Resp' : Cmd' → Type}
    {h : (c : Cmd') → Prog Cmd Resp (Resp' c)} (hh : ∀ c, R.Keeps (h c))
    (p : Prog Cmd' Resp' α) : R.Keeps (p.handle h) := by
  induction p with
  | ret a => exact keeps_pure a
  | call c k ih => exact keeps_bind (hh c) ih

end Rely

namespace Pool

variable {M : Machine Cmd Resp World} {program : Req → Prog Cmd Resp Res} {init : World}

/-- The run rule: if every program ensures its postcondition when it is started without having moved
yet, then in every reachable pool the invariant holds, and each program still ensures its
postcondition. -/
theorem Reachable.sound_started (R : Rely M) (post : (tid : ℕ) → Req → World → Res → Prop)
    (hinit : R.inv init)
    (hprog : ∀ tid req w, R.inv w → R.later tid init w →
      (program req).Ensures R tid (post tid req) w)
    {s : Pool Cmd Resp World Req Res} (hs : Reachable M program init s) :
    R.inv s.world ∧ (∀ tid, s.tasks.length ≤ tid → R.later tid init s.world) ∧
      ∀ (tid : ℕ) (t : Task Cmd Resp Req Res), s.tasks[tid]? = some t →
        t.rest.Ensures R tid (post tid t.request) s.world := by
  induction hs with
  | init => exact ⟨hinit, fun tid _ => R.refl tid _, fun tid t ht => by simp at ht⟩
  | step _ hstep ih =>
    obtain ⟨hinv, hunmoved, htasks⟩ := ih
    cases hstep with
    | start w tasks req =>
      refine ⟨hinv, fun tid hle => ?_, fun tid t ht => ?_⟩
      · apply hunmoved tid
        rw [List.length_append] at hle
        exact Nat.le_of_add_right_le hle
      · change (tasks ++ [_])[tid]? = some t at ht
        rw [List.getElem?_append] at ht
        split at ht
        · exact htasks tid t ht
        · rename_i hle
          rw [List.getElem?_singleton] at ht
          split at ht
          · obtain rfl := Option.some.inj ht
            exact hprog tid req w hinv (hunmoved tid (Nat.le_of_not_lt hle))
          · contradiction
    | @exec w w' tasks tid req c k r htask hexec =>
      -- the program that moves keeps its own promise, and the others only see a later world
      obtain ⟨hinv', hle, hk⟩ := htasks tid _ htask w r w' (R.refl tid w) hinv hexec
      have hlt := (List.getElem?_eq_some_iff.mp htask).1
      refine ⟨hinv', fun tid' hlen => ?_, fun tid' t ht => ?_⟩
      · rw [List.length_set] at hlen
        exact R.trans (hunmoved tid' hlen) (hle tid' (Nat.ne_of_gt (Nat.lt_of_lt_of_le hlt hlen)))
      · change (tasks.set tid _)[tid']? = some t at ht
        by_cases heq : tid' = tid
        · subst heq
          rw [List.getElem?_set_self hlt] at ht
          obtain rfl := Option.some.inj ht
          exact hk
        · rw [List.getElem?_set_ne (Ne.symm heq)] at ht
          exact (htasks tid' t ht).mono_world (hle tid' heq)
    | outside tasks hout =>
      obtain ⟨hinv', hle⟩ := R.outside hinv hout
      exact ⟨hinv', fun tid hlen => R.trans (hunmoved tid hlen) (hle tid),
        fun tid t ht => (htasks tid t ht).mono_world (hle tid)⟩

/-- The run rule for programs that ensure their postcondition wherever they are started. -/
theorem Reachable.sound (R : Rely M) (post : (tid : ℕ) → Req → World → Res → Prop)
    (hinit : R.inv init)
    (hprog : ∀ tid req w, R.inv w → (program req).Ensures R tid (post tid req) w)
    {s : Pool Cmd Resp World Req Res} (hs : Reachable M program init s) :
    R.inv s.world ∧ ∀ (tid : ℕ) (t : Task Cmd Resp Req Res), s.tasks[tid]? = some t →
      t.rest.Ensures R tid (post tid t.request) s.world := by
  obtain ⟨hinv, -, htasks⟩ := hs.sound_started R post hinit fun tid req w h _ => hprog tid req w h
  exact ⟨hinv, htasks⟩

/-- In every reachable pool the invariant holds. -/
theorem Reachable.inv (R : Rely M) (post : (tid : ℕ) → Req → World → Res → Prop)
    (hinit : R.inv init)
    (hprog : ∀ tid req w, R.inv w → (program req).Ensures R tid (post tid req) w)
    {s : Pool Cmd Resp World Req Res} (hs : Reachable M program init s) : R.inv s.world :=
  (hs.sound R post hinit hprog).1

/-- In every reachable pool a program that has returned satisfies its postcondition. -/
theorem Reachable.post (R : Rely M) (post : (tid : ℕ) → Req → World → Res → Prop)
    (hinit : R.inv init)
    (hprog : ∀ tid req w, R.inv w → (program req).Ensures R tid (post tid req) w)
    {s : Pool Cmd Resp World Req Res} (hs : Reachable M program init s) {tid : ℕ} {req : Req}
    {res : Res} (hfin : s.Finished tid req res) : post tid req s.world res :=
  (hs.sound R post hinit hprog).2 tid _ hfin s.world (R.refl tid _)

/-- If the commands can be executed as a function of the world says, a program can be run to its
end while nothing else moves. -/
theorem Reachable.runToEnd {exec : World → (c : Cmd) → Resp c × World} {tid : ℕ}
    (hexec : ∀ w c, M.exec tid w c (exec w c).1 (exec w c).2) (p : Prog Cmd Resp Res) {req : Req}
    {s : Pool Cmd Resp World Req Res} (hs : Reachable M program init s)
    (htask : s.tasks[tid]? = some ⟨req, p⟩) :
    Reachable M program init ⟨(p.runOn exec s.world).2,
      s.tasks.set tid ⟨req, .ret (p.runOn exec s.world).1⟩⟩ := by
  induction p generalizing s with
  | ret a =>
    obtain ⟨hlt, heq⟩ := List.getElem?_eq_some_iff.mp htask
    have hset : s.tasks.set tid ⟨req, .ret a⟩ = s.tasks := by
      rw [← heq]
      exact List.set_getElem_self hlt
    change Reachable M program init ⟨s.world, s.tasks.set tid ⟨req, .ret a⟩⟩
    rwa [hset]
  | call c k ih =>
    have hnext := hs.step (.exec htask (hexec s.world c))
    have hlt := (List.getElem?_eq_some_iff.mp htask).1
    have hreach := ih (exec s.world c).1 hnext (List.getElem?_set_self hlt)
    rwa [List.set_set] at hreach

/-! ## Schedules -/

/-- Start a program. -/
def start (program : Req → Prog Cmd Resp Res) (req : Req) (s : Pool Cmd Resp World Req Res) :
    Pool Cmd Resp World Req Res := ⟨s.world, s.tasks ++ [⟨req, program req⟩]⟩

/-- Execute one command of a program, if it has one left. -/
def move (exec : (tid : ℕ) → World → (c : Cmd) → Resp c × World) (tid : ℕ)
    (s : Pool Cmd Resp World Req Res) : Pool Cmd Resp World Req Res :=
  match s.tasks[tid]? with
  | some ⟨req, .call c k⟩ =>
    ⟨(exec tid s.world c).2, s.tasks.set tid ⟨req, k (exec tid s.world c).1⟩⟩
  | _ => s

/-- What the program under a number has returned, with its request. -/
def result (s : Pool Cmd Resp World Req Res) (tid : ℕ) : Option (Req × Res) :=
  match s.tasks[tid]? with
  | some ⟨req, .ret res⟩ => some (req, res)
  | _ => none

/-- A program with a result has returned it. -/
theorem finished_of_result {s : Pool Cmd Resp World Req Res} {tid : ℕ} {req : Req} {res : Res}
    (h : s.result tid = some (req, res)) : s.Finished tid req res := by
  unfold result at h
  split at h
  · rename_i htask
    obtain ⟨rfl, rfl⟩ := Prod.mk.inj (Option.some.inj h)
    exact htask
  · contradiction

/-- Any number of commands of one program are steps of a run. -/
theorem Reachable.moves {exec : (tid : ℕ) → World → (c : Cmd) → Resp c × World}
    (hexec : ∀ tid w c, M.exec tid w c (exec tid w c).1 (exec tid w c).2) (tid count : ℕ)
    {s : Pool Cmd Resp World Req Res} (hs : Reachable M program init s) :
    Reachable M program init ((move exec tid)^[count] s) := by
  induction count generalizing s with
  | zero => exact hs
  | succ count ih =>
    apply ih
    unfold move
    split
    · rename_i htask
      exact hs.step (.exec htask (hexec tid s.world _))
    · exact hs

end Pool

end Interaction
