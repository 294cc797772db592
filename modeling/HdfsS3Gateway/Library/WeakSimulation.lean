import HdfsS3Gateway.Library.Interleaving
import Mathlib.Data.List.Forall2

/-!
# Pools seen at another level

A program over a larger set of commands does what one over a smaller set does when, with the commands
that are not seen at the smaller level left out, it issues the same commands, goes on alike after the
same responses, and returns a related result. If every program of a pool does so, and the world of the
pool is seen as a world of the smaller level, then every run of the pool is seen as a run of the
smaller level, with the programs under the same numbers.
-/

namespace Interaction

variable {Cmd Cmd' World World' : Type} {Resp : Cmd → Type} {Resp' : Cmd' → Type}

section Lists

variable {α β : Type} {R : α → β → Prop} {xs : List α} {ys : List β}

theorem forall₂_set {x : α} {y : β}
    (h : List.Forall₂ R xs ys) (hxy : R x y) (i : ℕ) : List.Forall₂ R (xs.set i x) (ys.set i y) := by
  induction h generalizing i with
  | nil => exact .nil
  | cons hhead htail ih =>
    cases i with
    | zero => exact .cons hxy htail
    | succ i => exact .cons hhead (ih i)

/-- Related lists have related elements at an index. -/
theorem forall₂_getElem? {x : α} {i : ℕ}
    (h : List.Forall₂ R xs ys) (hx : xs[i]? = some x) : ∃ y, ys[i]? = some y ∧ R x y := by
  induction h generalizing i with
  | nil => simp at hx
  | cons hhead _ ih =>
    cases i with
    | zero => exact ⟨_, rfl, Option.some.inj hx ▸ hhead⟩
    | succ i => exact ih hx

end Lists

/-- How the commands and the worlds of a machine are seen at another level. -/
structure View (M : Machine Cmd Resp World) (M' : Machine Cmd' Resp' World') where
  /-- How a world is seen. -/
  world : World → World'
  /-- How an executed command is seen, with its response. -/
  seen : Sigma Resp → Option (Sigma Resp')
  silent : ∀ {tid w c r w'}, M.exec tid w c r w' → seen ⟨c, r⟩ = none → world w' = world w
  shown : ∀ {tid w c r w' e}, M.exec tid w c r w' → seen ⟨c, r⟩ = some e →
    M'.exec tid (world w) e.1 e.2 (world w')
  outside : ∀ {w w'}, M.outside w w' → M'.outside (world w) (world w')

namespace View

variable {M : Machine Cmd Resp World} {M' : Machine Cmd' Resp' World'} (V : View M M')

/-! ## Programs -/

section Programs

variable {α α' β β' : Type} {Q : α → β → Prop} {Q' : α' → β' → Prop}

/-- The program issues the commands of the other, as they are seen, and returns a related result. -/
def Follows (Q : α → β → Prop) : Prog Cmd Resp α → Prog Cmd' Resp' β → Prop
  | .ret a, q => ∃ b, q = .ret b ∧ Q a b
  | .call c k, q => ∀ r, (V.seen ⟨c, r⟩ = none ∧ Follows Q (k r) q) ∨
      ∃ c' r' k', V.seen ⟨c, r⟩ = some ⟨c', r'⟩ ∧ q = .call c' k' ∧ Follows Q (k r) (k' r')

theorem follows_ret {a : α} {b : β} (h : Q a b) : V.Follows Q (.ret a) (.ret b) := ⟨b, rfl, h⟩

/-- A command that is not seen changes nothing. -/
theorem follows_silent {c : Cmd} {k : Resp c → Prog Cmd Resp α} {q : Prog Cmd' Resp' β}
    (hseen : ∀ r, V.seen ⟨c, r⟩ = none) (h : ∀ r, V.Follows Q (k r) q) :
    V.Follows Q (.call c k) q := fun r => .inl ⟨hseen r, h r⟩

/-- Sequences follow sequences. -/
theorem follows_bind {p : Prog Cmd Resp α} {q : Prog Cmd' Resp' β} {f : α → Prog Cmd Resp α'}
    {g : β → Prog Cmd' Resp' β'} (hp : V.Follows Q p q) (hf : ∀ a b, Q a b → V.Follows Q' (f a) (g b)) :
    V.Follows Q' (p >>= f) (q >>= g) := by
  induction p generalizing q with
  | ret a =>
    obtain ⟨b, rfl, hab⟩ := hp
    exact hf a b hab
  | call c k ih =>
    intro r
    rcases hp r with ⟨hseen, hrest⟩ | ⟨c', r', k', hseen, rfl, hrest⟩
    · exact .inl ⟨hseen, ih r hrest⟩
    · exact .inr ⟨c', r', _, hseen, rfl, ih r hrest⟩

end Programs

/-! ## Pools -/

section Pools

variable {Req Req' Res Res' : Type} {program : Req → Prog Cmd Resp Res}
  {program' : Req' → Prog Cmd' Resp' Res'} {asked : Req → Req'} {Q : Req → Res → Res' → Prop}
  {init : World} {s : Pool Cmd Resp World Req Res}

/-- A program of a pool is seen as one of the other level. -/
def TaskSeen (asked : Req → Req') (Q : Req → Res → Res' → Prop) (t : Task Cmd Resp Req Res)
    (t' : Task Cmd' Resp' Req' Res') : Prop :=
  t'.request = asked t.request ∧ V.Follows (Q t.request) t.rest t'.rest

/-- Every run is seen as a run of the other level. -/
theorem reachable (hprog : ∀ req, V.Follows (Q req) (program req) (program' (asked req)))
    (hs : Pool.Reachable M program init s) :
    ∃ t, Pool.Reachable M' program' (V.world init) t ∧ t.world = V.world s.world ∧
      List.Forall₂ (V.TaskSeen asked Q) s.tasks t.tasks := by
  induction hs with
  | init => exact ⟨_, .init, rfl, .nil⟩
  | step _ hstep ih =>
    obtain ⟨⟨world, tasks'⟩, ht, rfl, htasks⟩ := ih
    cases hstep with
    | start w tasks req =>
      exact ⟨_, ht.step (.start _ _ (asked req)), rfl,
        List.rel_append htasks (.cons ⟨rfl, hprog req⟩ .nil)⟩
    | outside tasks hout => exact ⟨_, ht.step (.outside _ (V.outside hout)), rfl, htasks⟩
    | @exec w w' tasks tid req c k r htask hexec =>
      obtain ⟨⟨req', q⟩, htask', rfl, hq⟩ := forall₂_getElem? htasks htask
      rcases hq r with ⟨hseen, hrest⟩ | ⟨c', r', k', hseen, hcall, hrest⟩
      · -- the other level does not move
        obtain ⟨hlt, hget⟩ := List.getElem?_eq_some_iff.mp htask'
        have hsame : tasks'.set tid ⟨asked req, q⟩ = tasks' := hget ▸ List.set_getElem_self hlt
        refine ⟨_, ht, (V.silent hexec hseen).symm, ?_⟩
        have hset : List.Forall₂ (V.TaskSeen asked Q) (tasks.set tid ⟨req, k r⟩)
            (tasks'.set tid ⟨asked req, q⟩) := forall₂_set htasks ⟨rfl, hrest⟩ tid
        exact hsame ▸ hset
      · change q = .call c' k' at hcall
        subst hcall
        exact ⟨_, ht.step (.exec htask' (V.shown hexec hseen)), rfl,
          forall₂_set htasks ⟨rfl, hrest⟩ tid⟩

/-- What a program returned is seen as a result of the other level. -/
theorem finished {t : Pool Cmd' Resp' World' Req' Res'} {tid : ℕ} {req : Req} {res : Res}
    (htasks : List.Forall₂ (V.TaskSeen asked Q) s.tasks t.tasks) (hfin : s.Finished tid req res) :
    ∃ res', t.Finished tid (asked req) res' ∧ Q req res res' := by
  obtain ⟨⟨req', q⟩, htask', rfl, b, rfl, hq⟩ := forall₂_getElem? htasks hfin
  exact ⟨b, htask', hq⟩

end Pools

end View

end Interaction
