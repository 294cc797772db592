import HdfsS3Gateway.Library.Interleaving
import Mathlib.Data.List.Basic

/-!
# Transcripts

What a program did is the list of its commands with the responses it received. `Runs` relates a
program to the transcripts it can have and the results it returns after them, whoever gave the
responses: a table, a world that changes between any two commands, or other programs.

A transcript of a sequence is split at the intermediate result, and a program over the commands of a
handler has a transcript of its own in which every response is a result of the handler.
-/

namespace Interaction

namespace Prog

variable {Cmd : Type} {Resp : Cmd → Type} {α β : Type}

/-- Receiving these responses to these commands, the program returns the value. -/
inductive Runs : Prog Cmd Resp α → List (Sigma Resp) → α → Prop
  | ret (a : α) : Runs (ret a) [] a
  | call {c : Cmd} {k : Resp c → Prog Cmd Resp α} {r : Resp c} {log : List (Sigma Resp)} {a : α}
      (h : Runs (k r) log a) : Runs (call c k) (⟨c, r⟩ :: log) a

variable {p : Prog Cmd Resp α} {f : α → Prog Cmd Resp β} {log : List (Sigma Resp)} {a : α} {b : β}

@[simp] theorem runs_ret {a' : α} : (ret a : Prog Cmd Resp α).Runs log a' ↔ log = [] ∧ a = a' :=
  ⟨fun h => by cases h; exact ⟨rfl, rfl⟩, fun ⟨hlog, hb⟩ => hlog ▸ hb ▸ .ret a⟩

/-- A program that calls receives a response and goes on. -/
theorem runs_call {c : Cmd} {k : Resp c → Prog Cmd Resp α} :
    (call c k).Runs log a ↔ ∃ r rest, log = ⟨c, r⟩ :: rest ∧ (k r).Runs rest a := by
  constructor
  · intro h
    cases h with
    | call h => exact ⟨_, _, rfl, h⟩
  · rintro ⟨r, rest, rfl, h⟩
    exact .call h

/-- A transcript of a sequence is one of its first part, and then one of the rest. -/
theorem runs_bind : (p >>= f).Runs log b ↔
    ∃ first second a, log = first ++ second ∧ p.Runs first a ∧ (f a).Runs second b := by
  induction p generalizing log with
  | ret a =>
    constructor
    · exact fun h => ⟨[], log, a, rfl, .ret a, h⟩
    · rintro ⟨first, second, a', rfl, hfirst, hsecond⟩
      obtain ⟨rfl, rfl⟩ := runs_ret.mp hfirst
      exact hsecond
  | call c k ih =>
    rw [call_bind, runs_call]
    constructor
    · rintro ⟨r, rest, rfl, h⟩
      obtain ⟨first, second, a, rfl, hfirst, hsecond⟩ := (ih r).mp h
      exact ⟨_, second, a, rfl, .call hfirst, hsecond⟩
    · rintro ⟨first, second, a, rfl, hfirst, hsecond⟩
      obtain ⟨r, rest, rfl, hrest⟩ := runs_call.mp hfirst
      exact ⟨r, rest ++ second, rfl, (ih r).mpr ⟨rest, second, a, rfl, hrest, hsecond⟩⟩

/-- Against a table a program has one transcript. -/
theorem runs_eval (oracle : (c : Cmd) → Resp c) (p : Prog Cmd Resp α) :
    p.Runs ((p.trace oracle).map fun c => ⟨c, oracle c⟩) (p.eval oracle) := by
  induction p with
  | ret a => exact .ret a
  | call c k ih => exact .call (ih _)

/-- A table that gives the responses of a transcript gives its commands and its result. -/
theorem Runs.eq_eval (h : p.Runs log a) {oracle : (c : Cmd) → Resp c}
    (horacle : ∀ e ∈ log, oracle e.1 = e.2) :
    p.eval oracle = a ∧ p.trace oracle = log.map Sigma.fst := by
  induction h with
  | ret a => exact ⟨rfl, rfl⟩
  | @call c k r log a _ ih =>
    have hr : oracle c = r := horacle ⟨c, r⟩ List.mem_cons_self
    obtain ⟨heval, htrace⟩ := ih fun e he => horacle e (List.mem_cons_of_mem _ he)
    rw [eval_call, trace, hr, heval, htrace]
    exact ⟨rfl, rfl⟩

/-- A result after a transcript is one that the program can return. -/
theorem Runs.yields (h : p.Runs log a) : p.Yields a := by
  induction h with
  | ret a => rfl
  | call _ ih => exact ⟨_, ih⟩

/-- A transcript with commands that the program always issues. -/
theorem Runs.always {P : Cmd → Prop} (h : p.Runs log a) (hp : p.Always P) :
    ∀ e ∈ log, P e.1 := by
  induction h with
  | ret a => simp
  | @call c k r log a _ ih =>
    intro e he
    rcases List.mem_cons.mp he with rfl | he
    · exact hp.1
    · exact ih (hp.2 _) e he

/-! ## Handlers -/

section Handle

variable {World Cmd' : Type} {Resp' : Cmd' → Type} {M : Machine Cmd' Resp' World} {R : Rely M}
  {tid : ℕ} {w : World}

/-- If every handler returns only responses that are good from then on, a handled program returns the
result of a transcript of good responses. -/
theorem ensures_handle {h : (c : Cmd) → Prog Cmd' Resp' (Resp c)} {Good : World → Sigma Resp → Prop}
    (hstable : ∀ w w' e, R.later tid w w' → Good w e → Good w' e)
    (hown : ∀ w c r w' e, M.exec tid w c r w' → Good w e → Good w' e)
    (hh : ∀ c w, (h c).Ensures R tid (fun w' r => Good w' ⟨c, r⟩) w) (p : Prog Cmd Resp α) (w : World) :
    (p.handle h).Ensures R tid
      (fun w' a => ∃ log, p.Runs log a ∧ ∀ e ∈ log, Good w' e) w := by
  induction p generalizing w with
  | ret a => exact fun w' _ => ⟨[], .ret a, by simp⟩
  | call c k ih =>
    apply ensures_bind
    apply (hh c w).mono
    intro w' r hgood
    have hrest := (ih r w').frame (fun _ _ hle => hstable _ _ ⟨c, r⟩ hle)
      (fun v c' r' v' hexec => hown v c' r' v' ⟨c, r⟩ hexec) hgood
    apply hrest.mono
    rintro v a ⟨⟨log, hruns, hlog⟩, hv⟩
    refine ⟨_, .call hruns, fun e he => ?_⟩
    rcases List.mem_cons.mp he with rfl | he
    · exact hv
    · exact hlog e he

end Handle

section Handled

variable {Cmd' : Type} {Resp' : Cmd' → Type}

/-- The second transcript puts together one of the handler for each command of the first. -/
inductive Handled (h : (c : Cmd) → Prog Cmd' Resp' (Resp c)) :
    List (Sigma Resp) → List (Sigma Resp') → Prop
  | nil : Handled h [] []
  | cons {c : Cmd} {r : Resp c} {own rest : List (Sigma Resp')} {told : List (Sigma Resp)}
      (hown : (h c).Runs own r) (hrest : Handled h told rest) :
      Handled h (⟨c, r⟩ :: told) (own ++ rest)

/-- A transcript of a handled program puts together those of its handlers. -/
theorem Runs.handled {h : (c : Cmd) → Prog Cmd' Resp' (Resp c)} {log : List (Sigma Resp')}
    (hruns : (p.handle h).Runs log a) : ∃ told, p.Runs told a ∧ Handled h told log := by
  induction p generalizing log with
  | ret b =>
    obtain ⟨rfl, rfl⟩ := runs_ret.mp hruns
    exact ⟨[], .ret b, .nil⟩
  | call c k ih =>
    obtain ⟨own, rest, r, rfl, hown, hrest⟩ := runs_bind.mp hruns
    obtain ⟨told, htold, hhandled⟩ := ih r hrest
    exact ⟨_, .call htold, .cons hown hhandled⟩

end Handled

end Prog

/-! ## The own transcript of a program -/

/-- A world that records who executed what, and with which response. -/
structure Recording {World : Type} {Cmd : Type} {Resp : Cmd → Type} (M : Machine Cmd Resp World)
    where
  log : World → List (ℕ × Sigma Resp)
  exec : ∀ {tid w c r w'}, M.exec tid w c r w' → log w' = log w ++ [(tid, ⟨c, r⟩)]
  outside : ∀ {w w'}, M.outside w w' → log w' = log w

section Recording

variable {World Cmd Req Res : Type} {Resp : Cmd → Type} {M : Machine Cmd Resp World}
  {program : Req → Prog Cmd Resp Res} {init : World} {s : Pool Cmd Resp World Req Res}

/-- What one program executed. -/
def Recording.own (L : Recording M) (tid : ℕ) (w : World) : List (Sigma Resp) :=
  ((L.log w).filter fun e => e.1 = tid).map Prod.snd

theorem Recording.own_exec (L : Recording M) {tid other : ℕ} {w w' : World} {c : Cmd} {r : Resp c}
    (h : M.exec tid w c r w') :
    L.own other w' = L.own other w ++ if tid = other then [⟨c, r⟩] else [] := by
  rw [own, own, L.exec h]
  by_cases heq : tid = other <;> simp [heq]

/-- In every reachable pool the own transcript of a program, and any one of what is left of it, make a
transcript of the whole program. -/
theorem Pool.Reachable.transcript (L : Recording M) (hinit : L.log init = [])
    (hs : Pool.Reachable M program init s) :
    (∀ tid, s.tasks.length ≤ tid → L.own tid s.world = []) ∧
      ∀ (tid : ℕ) (t : Task Cmd Resp Req Res), s.tasks[tid]? = some t → ∀ rest res,
        t.rest.Runs rest res → (program t.request).Runs (L.own tid s.world ++ rest) res := by
  induction hs with
  | init => exact ⟨fun tid _ => by simp [Recording.own, hinit], fun tid t ht => by simp at ht⟩
  | step _ hstep ih =>
    obtain ⟨hunmoved, htasks⟩ := ih
    cases hstep with
    | start w tasks req =>
      refine ⟨fun tid hle => hunmoved tid ?_, fun tid t ht rest res hrest => ?_⟩
      · rw [List.length_append] at hle
        exact Nat.le_of_add_right_le hle
      · change (tasks ++ [_])[tid]? = some t at ht
        rw [List.getElem?_append] at ht
        split at ht
        · exact htasks tid t ht rest res hrest
        · rename_i hle
          rw [List.getElem?_singleton] at ht
          split at ht
          · obtain rfl := Option.some.inj ht
            change (program req).Runs (L.own tid w ++ rest) res
            rw [hunmoved tid (Nat.le_of_not_lt hle)]
            exact hrest
          · contradiction
    | @exec w w' tasks tid req c k r htask hexec =>
      have hlt := (List.getElem?_eq_some_iff.mp htask).1
      refine ⟨fun tid' hle => ?_, fun tid' t ht rest res hrest => ?_⟩
      · rw [List.length_set] at hle
        have hne : tid ≠ tid' := Nat.ne_of_lt (Nat.lt_of_lt_of_le hlt hle)
        change L.own tid' w' = []
        rw [L.own_exec hexec, if_neg hne, List.append_nil]
        exact hunmoved tid' hle
      · change (tasks.set tid _)[tid']? = some t at ht
        change (program t.request).Runs (L.own tid' w' ++ rest) res
        rw [L.own_exec hexec]
        by_cases heq : tid = tid'
        · subst heq
          rw [List.getElem?_set_self hlt] at ht
          obtain rfl := Option.some.inj ht
          rw [if_pos rfl, List.append_assoc]
          exact htasks tid _ htask _ res (.call hrest)
        · rw [List.getElem?_set_ne heq] at ht
          rw [if_neg heq, List.append_nil]
          exact htasks tid' t ht rest res hrest
    | @outside w w' tasks hout =>
      have hsame : ∀ tid, L.own tid w' = L.own tid w := fun tid => by
        rw [Recording.own, Recording.own, L.outside hout]
      refine ⟨fun tid hle => (hsame tid).trans (hunmoved tid hle), fun tid t ht rest res hrest => ?_⟩
      change (program t.request).Runs (L.own tid w' ++ rest) res
      rw [hsame]
      exact htasks tid t ht rest res hrest

/-- The own transcript of a program that has returned. -/
theorem Pool.Reachable.runs_own (L : Recording M) (hinit : L.log init = [])
    (hs : Pool.Reachable M program init s) {tid : ℕ} {req : Req} {res : Res}
    (hfin : s.Finished tid req res) : (program req).Runs (L.own tid s.world) res := by
  have hruns := (hs.transcript L hinit).2 tid _ hfin [] res (.ret res)
  rwa [List.append_nil] at hruns

end Recording

end Interaction
