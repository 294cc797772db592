import HdfsS3Gateway.Library.Interleaving

/-!
# Programs and pools in lockstep

Two programs are in lockstep under a relation on responses if they issue the same commands for as long
as their responses are related, and then return related results. The rules follow the structure of
programs: returning, sequencing, one command, handlers.

A machine follows another if it can answer each command with a related response and stay in a related
world. Then every run of the first has a twin on the second, step by step, in which programs in
lockstep stay so. What two related worlds share is what no program can tell apart.
-/

namespace Interaction

variable {Cmd : Type} {Resp : Cmd → Type} {World World' Req Res Res' : Type}

namespace Prog

variable {α β α' β' : Type}

/-- The programs issue the same commands under related responses, and return related results. -/
inductive Lockstep (E : (c : Cmd) → Resp c → Resp c → Prop) (Q : α → β → Prop) :
    Prog Cmd Resp α → Prog Cmd Resp β → Prop
  | ret {a b} (h : Q a b) : Lockstep E Q (.ret a) (.ret b)
  | call {c k k'} (h : ∀ r r', E c r r' → Lockstep E Q (k r) (k' r')) :
      Lockstep E Q (.call c k) (.call c k')

variable {E : (c : Cmd) → Resp c → Resp c → Prop} {Q : α → β → Prop} {Q' : α' → β' → Prop}
  {p : Prog Cmd Resp α} {p' : Prog Cmd Resp β}

/-- The rule of sequencing. -/
theorem lockstep_bind {f : α → Prog Cmd Resp α'} {f' : β → Prog Cmd Resp β'}
    (hp : Lockstep E Q p p') (hf : ∀ a b, Q a b → Lockstep E Q' (f a) (f' b)) :
    Lockstep E Q' (p >>= f) (p' >>= f') := by
  induction hp with
  | ret h => exact hf _ _ h
  | call _ ih => exact .call ih

/-- The rule for functions of the results. -/
theorem lockstep_map {f : α → α'} {f' : β → β'} (hp : Lockstep E Q p p')
    (hf : ∀ a b, Q a b → Q' (f a) (f' b)) : Lockstep E Q' (f <$> p) (f' <$> p') :=
  lockstep_bind hp fun a b h => .ret (hf a b h)

/-- The rule of one command. -/
theorem lockstep_perform (c : Cmd) :
    Lockstep E (E c) (perform c : Prog Cmd Resp _) (perform c) := .call fun _ _ h => .ret h

/-- The rule of handlers: they answer a command with related results. -/
theorem lockstep_handle {Cmd' : Type} {Resp' : Cmd' → Type}
    {E' : (c : Cmd') → Resp' c → Resp' c → Prop} {h h' : (c : Cmd) → Prog Cmd' Resp' (Resp c)}
    (hh : ∀ c, Lockstep E' (E c) (h c) (h' c)) (hp : Lockstep E Q p p') :
    Lockstep E' Q (p.handle h) (p'.handle h') := by
  induction hp with
  | ret h => exact .ret h
  | call _ ih => exact lockstep_bind (hh _) ih

end Prog

/-- Machine `M'` answers with related responses and stays in related worlds. -/
structure Machine.Follows (M : Machine Cmd Resp World) (M' : Machine Cmd Resp World')
    (E : (c : Cmd) → Resp c → Resp c → Prop) (W : World → World' → Prop) : Prop where
  exec : ∀ {tid w w' c r v}, W w w' → M.exec tid w c r v →
    ∃ r' v', M'.exec tid w' c r' v' ∧ E c r r' ∧ W v v'
  outside : ∀ {w w' v}, W w w' → M.outside w v → ∃ v', M'.outside w' v' ∧ W v v'

namespace Pool

variable {E : (c : Cmd) → Resp c → Resp c → Prop} {W : World → World' → Prop}
  {Q : Req → Res → Res' → Prop} {M : Machine Cmd Resp World} {M' : Machine Cmd Resp World'}
  {program : Req → Prog Cmd Resp Res} {program' : Req → Prog Cmd Resp Res'}

/-- Related worlds, with the same requests in lockstep. -/
structure Twin (E : (c : Cmd) → Resp c → Resp c → Prop) (W : World → World' → Prop)
    (Q : Req → Res → Res' → Prop) (s : Pool Cmd Resp World Req Res)
    (s' : Pool Cmd Resp World' Req Res') : Prop where
  world : W s.world s'.world
  length : s.tasks.length = s'.tasks.length
  tasks : ∀ (tid : ℕ) (t : Task Cmd Resp Req Res), s.tasks[tid]? = some t →
    ∃ rest', s'.tasks[tid]? = some ⟨t.request, rest'⟩ ∧ t.rest.Lockstep E (Q t.request) rest'

/-- A twin of a finished program has finished with a related result. -/
theorem Twin.finished {s : Pool Cmd Resp World Req Res} {s' : Pool Cmd Resp World' Req Res'}
    (h : Twin E W Q s s') {tid : ℕ} {req : Req} {res : Res} (hfin : s.Finished tid req res) :
    ∃ res', s'.Finished tid req res' ∧ Q req res res' := by
  obtain ⟨rest', htask, hrest⟩ := h.tasks tid _ hfin
  cases hrest with
  | ret hres => exact ⟨_, htask, hres⟩

/-- One step of a pool is one step of its twin. -/
theorem Twin.step (hM : M.Follows M' E W)
    (hprog : ∀ req, (program req).Lockstep E (Q req) (program' req))
    {s v : Pool Cmd Resp World Req Res} {s' : Pool Cmd Resp World' Req Res'} (h : Twin E W Q s s')
    (hstep : Step M program s v) : ∃ v', Step M' program' s' v' ∧ Twin E W Q v v' := by
  obtain ⟨w', tasks'⟩ := s'
  cases hstep with
  | start w tasks req =>
    have hlength : tasks.length = tasks'.length := h.length
    refine ⟨_, .start w' tasks' req, h.world, by simp [hlength], fun tid t ht => ?_⟩
    change (tasks ++ [_])[tid]? = some t at ht
    change ∃ rest', (tasks' ++ [_])[tid]? = _ ∧ _
    rw [List.getElem?_append] at ht ⊢
    rw [← hlength]
    split at ht
    · rename_i hlt
      rw [if_pos hlt]
      exact h.tasks tid t ht
    · rename_i hle
      rw [if_neg hle]
      rw [List.getElem?_singleton] at ht ⊢
      split at ht
      · rename_i hlast
        obtain rfl := Option.some.inj ht
        rw [if_pos hlast]
        exact ⟨_, rfl, hprog req⟩
      · contradiction
  | @exec w v tasks tid req c k r htask hexec =>
    -- the twin executes the same command of the same program
    obtain ⟨rest', htask', hrest⟩ := h.tasks tid _ htask
    obtain ⟨r', v', hexec', hr, hv⟩ := hM.exec h.world hexec
    cases hrest with
    | call hk =>
      refine ⟨_, .exec htask' hexec', hv, by simpa using h.length, fun tid' t ht => ?_⟩
      change (tasks.set tid _)[tid']? = some t at ht
      change ∃ rest', (tasks'.set tid _)[tid']? = _ ∧ _
      by_cases heq : tid' = tid
      · subst heq
        rw [List.getElem?_set_self (List.getElem?_eq_some_iff.mp htask).1] at ht
        obtain rfl := Option.some.inj ht
        exact ⟨_, List.getElem?_set_self (List.getElem?_eq_some_iff.mp htask').1, hk r r' hr⟩
      · rw [List.getElem?_set_ne (Ne.symm heq)] at ht ⊢
        exact h.tasks tid' t ht
  | outside tasks hout =>
    obtain ⟨v', hout', hv⟩ := hM.outside h.world hout
    exact ⟨_, .outside tasks' hout', hv, h.length, h.tasks⟩

/-- The run rule: every reachable pool has a reachable twin. -/
theorem Reachable.exists_twin (hM : M.Follows M' E W)
    (hprog : ∀ req, (program req).Lockstep E (Q req) (program' req)) {init : World} {init' : World'}
    (hinit : W init init') {s : Pool Cmd Resp World Req Res} (hs : Reachable M program init s) :
    ∃ s', Reachable M' program' init' s' ∧ Twin E W Q s s' := by
  induction hs with
  | init => exact ⟨_, .init, hinit, rfl, fun tid t ht => by simp at ht⟩
  | step _ hstep ih =>
    obtain ⟨s', hs', htwin⟩ := ih
    obtain ⟨v', hstep', htwin'⟩ := htwin.step hM hprog hstep
    exact ⟨v', hs'.step hstep', htwin'⟩

end Pool

end Interaction
