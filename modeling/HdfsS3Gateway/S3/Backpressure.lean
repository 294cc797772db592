import HdfsS3Gateway.S3.Error
import Mathlib.Data.List.Perm.Basic
import Mathlib.Data.List.Nodup
import Mathlib.Data.List.Range

/-!
# Concurrency backpressure

Every request takes a permit of a shared semaphore in `call`, and the permit travels with the
request: the handler's future owns it, then the response body does. A request that finds no permit
is answered with 503 instead.

The semaphore numbers the permits it issues and keeps the list of those that came back, so that a
permit returned twice would be visible. A response body keeps the answers of its polls, so that
"the body has ended" is a fact of the run and not of the permit. The invariant `System.Conserved`
accounts for every issued permit, and each move of a request keeps it because a move changes what
the request holds and what the semaphore got back by the same permit.
-/

namespace HdfsS3Gateway

/-- `OwnedSemaphorePermit`, with the number it was issued under. -/
structure Permit where
  serial : ℕ
  deriving DecidableEq, Repr

/-- `tokio::sync::Semaphore`: the free permits, how many were issued and which came back. -/
structure Semaphore where
  available : ℕ
  issued : ℕ := 0
  returned : List Permit := []
  deriving DecidableEq, Repr

/-- `try_acquire_owned`: a permit if one is free. -/
def Semaphore.tryAcquireOwned (sem : Semaphore) : Option (Permit × Semaphore) :=
  if sem.available = 0 then none
  else some (⟨sem.issued⟩, { sem with available := sem.available - 1, issued := sem.issued + 1 })

/-- Dropping an owned permit returns its slot. -/
def Semaphore.dropPermit (sem : Semaphore) (permit : Permit) : Semaphore :=
  { sem with available := sem.available + 1, returned := permit :: sem.returned }

/-- What one `poll_frame` of a body answers. -/
inductive PollFrame
  | pending
  | data
  | error
  | endOfStream
  deriving DecidableEq, Repr

/-- `PermitBody`: the wrapped body, known by the answers it has given, and the permit it holds. -/
structure PermitBody where
  polled : List PollFrame := []
  permit : Option Permit
  deriving DecidableEq, Repr

namespace PermitBody

/-- `PermitBody::new`. -/
def new (permit : Permit) : PermitBody := { permit := some permit }

/-- `release`: drop the permit, if it is still there. -/
def release (sem : Semaphore) (body : PermitBody) : Semaphore × PermitBody :=
  match body.permit with
  | some permit => (sem.dropPermit permit, { body with permit := none })
  | none => (sem, body)

/-- `poll_frame`: poll the wrapped body, and release the permit at the end of the stream. -/
def pollFrame (sem : Semaphore) (body : PermitBody) (result : PollFrame) : Semaphore × PermitBody :=
  let body := { body with polled := body.polled ++ [result] }
  if result = .endOfStream then body.release sem else (sem, body)

/-- The body has answered a poll with the end of the stream. -/
def ended (body : PermitBody) : Bool := body.polled.contains .endOfStream

end PermitBody

/-- Where a request is. -/
inductive Phase
  /-- The handler's future runs and owns the permit. -/
  | handling (permit : Permit)
  /-- The response is out and its body is polled. -/
  | streaming (body : PermitBody)
  /-- No permit was free: the future answers with this error. -/
  | rejected (response : S3Error)
  /-- The handler failed, its future was dropped, or the body was dropped. -/
  | gone
  deriving DecidableEq, Repr

/-- A request, with the permit it was admitted with. -/
structure Request where
  admission : Option Permit
  phase : Phase
  deriving DecidableEq, Repr

/-- `slow_down_response`. -/
def slowDownResponse : S3Error :=
  { code := .slowDown, message := some "too many requests in flight; please retry later" }

/-- `BackpressureService::call`: admit the request if a permit is free, else answer 503. -/
def BackpressureService.call (sem : Semaphore) : Semaphore × Request :=
  match sem.tryAcquireOwned with
  | some (permit, sem) => (sem, { admission := some permit, phase := .handling permit })
  | none => (sem, { admission := none, phase := .rejected slowDownResponse })

/-- `BackpressureService::new`. -/
def BackpressureService.new (maxConcurrent : ℕ) : Semaphore := { available := max maxConcurrent 1 }

/-- One move of a request that has arrived, with its effect on the semaphore. -/
inductive Move : Semaphore → Phase → Semaphore → Phase → Prop
  /-- The handler returns an error, or the future is dropped: its permit goes with it. -/
  | fail (sem permit) : Move sem (.handling permit) (sem.dropPermit permit) .gone
  /-- The handler returns a response. -/
  | respond (sem permit) : Move sem (.handling permit) sem (.streaming (.new permit))
  /-- The body is polled, with any answer, also after its end. -/
  | poll (sem body result) :
      Move sem (.streaming body) (body.pollFrame sem result).1
        (.streaming (body.pollFrame sem result).2)
  /-- The body is dropped, at any point. -/
  | dropBody (sem body) : Move sem (.streaming body) (body.release sem).1 .gone
  /-- A rejected request's future is done or dropped. -/
  | answered (sem response) : Move sem (.rejected response) sem .gone

/-- The semaphore and the requests that have arrived, over all connections. -/
structure System where
  sem : Semaphore
  requests : List Request
  deriving DecidableEq, Repr

namespace System

/-- A request arrives, or some request moves. -/
inductive Step : System → System → Prop
  | arrive (sem requests) : Step ⟨sem, requests⟩
      ⟨(BackpressureService.call sem).1, requests ++ [(BackpressureService.call sem).2]⟩
  | move {sem sem' phase phase'} (before admission after) (h : Move sem phase sem' phase') :
      Step ⟨sem, before ++ ⟨admission, phase⟩ :: after⟩ ⟨sem', before ++ ⟨admission, phase'⟩ :: after⟩

/-- The states that any interleaving can reach. -/
inductive Reachable (maxConcurrent : ℕ) : System → Prop
  | init : Reachable maxConcurrent ⟨BackpressureService.new maxConcurrent, []⟩
  | step {s s'} (hs : Reachable maxConcurrent s) (h : Step s s') : Reachable maxConcurrent s'

end System

/-! ## Who holds which permit -/

/-- The permit a request holds, wherever it is stored. -/
def Request.held (r : Request) : Option Permit :=
  match r.phase with
  | .handling permit => some permit
  | .streaming body => body.permit
  | .rejected _ | .gone => none

/-- An admitted request whose response body has neither ended nor been dropped. -/
def Request.unfinished (r : Request) : Bool :=
  r.admission.isSome && match r.phase with
    | .handling _ => true
    | .streaming body => !body.ended
    | .rejected _ | .gone => false

section Simp

variable (admission : Option Permit)

@[simp] theorem Request.held_handling (permit : Permit) :
    Request.held ⟨admission, .handling permit⟩ = some permit := rfl

@[simp] theorem Request.held_streaming (body : PermitBody) :
    Request.held ⟨admission, .streaming body⟩ = body.permit := rfl

@[simp] theorem Request.held_rejected (response : S3Error) :
    Request.held ⟨admission, .rejected response⟩ = none := rfl

@[simp] theorem Request.held_gone : Request.held ⟨admission, .gone⟩ = none := rfl

@[simp] theorem Request.unfinished_handling (permit : Permit) :
    Request.unfinished ⟨admission, .handling permit⟩ = admission.isSome := Bool.and_true _

@[simp] theorem Request.unfinished_streaming (body : PermitBody) :
    Request.unfinished ⟨admission, .streaming body⟩ = (admission.isSome && !body.ended) := rfl

@[simp] theorem Request.unfinished_gone : Request.unfinished ⟨admission, .gone⟩ = false :=
  Bool.and_false _

end Simp

/-- A request holds the permit of its admission exactly while it is unfinished. -/
def Request.HoldsWhileUnfinished (r : Request) : Prop :=
  r.held = bif r.unfinished then r.admission else none

/-- The permits held by the requests. -/
def System.held (s : System) : List Permit := s.requests.filterMap Request.held

/-- The permits the requests were admitted with, in order of arrival. -/
def System.admitted (s : System) : List Permit := s.requests.filterMap Request.admission

/-- Every issued permit admitted one request, it is held by one request or came back once, the free
permits are those that are not held, and requests hold permits exactly while they are unfinished. -/
structure System.Conserved (cap : ℕ) (s : System) : Prop where
  free : s.sem.available + s.held.length = cap
  admitted : s.admitted = (List.range s.sem.issued).map Permit.mk
  accounted : (s.held ++ s.sem.returned).Perm ((List.range s.sem.issued).map Permit.mk)
  holds : ∀ r ∈ s.requests, r.HoldsWhileUnfinished

/-- Releasing gives back exactly the permit that the body held. -/
theorem PermitBody.release_spec (sem : Semaphore) (body : PermitBody) :
    (body.release sem).2.permit = none ∧ (body.release sem).2.polled = body.polled ∧
      (body.release sem).1 = body.permit.elim sem sem.dropPermit := by
  unfold PermitBody.release
  cases h : body.permit <;> simp [h]

/-- The end of the stream releases the permit, and no other answer does. -/
theorem PermitBody.pollFrame_spec (sem : Semaphore) (body : PermitBody) (result : PollFrame) :
    (body.pollFrame sem result).2.permit = (if result = .endOfStream then none else body.permit) ∧
      (body.pollFrame sem result).2.polled = body.polled ++ [result] ∧
      (body.pollFrame sem result).1 =
        if result = .endOfStream then body.permit.elim sem sem.dropPermit else sem := by
  unfold PermitBody.pollFrame
  by_cases h : result = .endOfStream
  · have hrel := PermitBody.release_spec sem { body with polled := body.polled ++ [result] }
    simpa [h] using hrel
  · simp [h]

/-- What a move does to the permits: the request keeps what it holds and the semaphore does not
change, or the request gives its permit back. -/
theorem Move.permit {sem sem' : Semaphore} {phase phase' : Phase} {admission : Option Permit}
    (h : Move sem phase sem' phase') :
    (Request.held ⟨admission, phase'⟩ = Request.held ⟨admission, phase⟩ ∧ sem' = sem) ∨
      ∃ p, Request.held ⟨admission, phase⟩ = some p ∧ Request.held ⟨admission, phase'⟩ = none ∧
        sem' = sem.dropPermit p := by
  cases h with
  | fail permit => exact Or.inr ⟨permit, rfl, rfl, rfl⟩
  | respond permit => exact Or.inl ⟨rfl, rfl⟩
  | answered response => exact Or.inl ⟨rfl, rfl⟩
  | poll body result =>
    obtain ⟨hpermit, -, hsem⟩ := PermitBody.pollFrame_spec sem body result
    simp only [Request.held_streaming, hpermit, hsem]
    by_cases hend : result = .endOfStream
    · cases hbody : body.permit with
      | none => simp
      | some p => exact Or.inr ⟨p, rfl, by simp [hend], by simp [hend]⟩
    · simp [hend]
  | dropBody body =>
    obtain ⟨-, -, hsem⟩ := PermitBody.release_spec sem body
    rw [Request.held_streaming, Request.held_gone, hsem]
    cases hbody : body.permit with
    | none => simp
    | some p => exact Or.inr ⟨p, rfl, rfl, rfl⟩

/-- A move keeps the tie between holding and being unfinished. -/
theorem Move.holdsWhileUnfinished {sem sem' : Semaphore} {phase phase' : Phase}
    {admission : Option Permit} (h : Move sem phase sem' phase')
    (hold : Request.HoldsWhileUnfinished ⟨admission, phase⟩) :
    Request.HoldsWhileUnfinished ⟨admission, phase'⟩ := by
  unfold Request.HoldsWhileUnfinished at hold ⊢
  cases h with
  | fail permit => simp
  | respond permit => simpa [PermitBody.new, PermitBody.ended] using hold
  | answered response => simp
  | dropBody body => simp
  | poll body result =>
    obtain ⟨hpermit, hpolled, -⟩ := PermitBody.pollFrame_spec sem body result
    rw [Request.held_streaming, Request.unfinished_streaming] at hold ⊢
    by_cases hend : result = .endOfStream
    · subst hend
      simp [hpermit, hpolled, PermitBody.ended]
    · simpa [hpermit, hpolled, PermitBody.ended, hend, Ne.symm hend] using hold

namespace System

/-- Replacing one request by another changes the held permits in one place. -/
theorem held_split (sem : Semaphore) (before after : List Request) (r : Request) :
    held ⟨sem, before ++ r :: after⟩ =
      before.filterMap Request.held ++ (r.held.toList ++ after.filterMap Request.held) := by
  rw [held, List.filterMap_append, List.filterMap_cons]
  cases r.held <;> rfl

/-- The admissions do not depend on where the requests are. -/
theorem admitted_split (sem : Semaphore) (before after : List Request) (a : Option Permit)
    (phase : Phase) : admitted ⟨sem, before ++ ⟨a, phase⟩ :: after⟩ =
      before.filterMap Request.admission ++ (a.toList ++ after.filterMap Request.admission) := by
  rw [admitted, List.filterMap_append, List.filterMap_cons]
  cases a <;> rfl

/-- A new last request adds its permit, if it holds one. -/
theorem held_append (sem : Semaphore) (requests : List Request) (r : Request) :
    held ⟨sem, requests ++ [r]⟩ = requests.filterMap Request.held ++ r.held.toList := by
  rw [held, List.filterMap_append]
  cases h : r.held <;> simp [h]

/-- Admission takes a free permit with the next number; without a free permit nothing changes. -/
theorem call_spec (sem : Semaphore) :
    (sem.available = 0 ∧ BackpressureService.call sem = (sem, ⟨none, .rejected slowDownResponse⟩)) ∨
      (0 < sem.available ∧ BackpressureService.call sem =
        (⟨sem.available - 1, sem.issued + 1, sem.returned⟩,
          ⟨some ⟨sem.issued⟩, .handling ⟨sem.issued⟩⟩)) := by
  unfold BackpressureService.call Semaphore.tryAcquireOwned
  by_cases h0 : sem.available = 0
  · simp [h0]
  · simp [h0, Nat.pos_of_ne_zero h0]

/-- An arriving request conserves the permits. -/
theorem Conserved.arrive {cap : ℕ} {sem : Semaphore} {requests : List Request}
    (hs : Conserved cap ⟨sem, requests⟩) :
    Conserved cap ⟨(BackpressureService.call sem).1, requests ++ [(BackpressureService.call sem).2]⟩ := by
  obtain ⟨hfree, hadm, hacc, hold⟩ := hs
  have hholds : ∀ r : Request, r.HoldsWhileUnfinished →
      ∀ r' ∈ requests ++ [r], r'.HoldsWhileUnfinished := by
    intro r hr r' hr'
    rcases List.mem_append.mp hr' with hr' | hr'
    · exact hold r' hr'
    · exact List.mem_singleton.mp hr' ▸ hr
  rcases call_spec sem with ⟨-, hcall⟩ | ⟨hpos, hcall⟩ <;> rw [hcall]
  · refine ⟨?_, by simpa [System.admitted] using hadm, ?_, hholds _ rfl⟩ <;>
      rw [held_append, Request.held_rejected]
    · simpa [held] using hfree
    · simpa [held] using hacc
  · refine ⟨?_, by simpa [System.admitted, List.range_succ] using hadm, ?_, hholds _ rfl⟩ <;>
      rw [held_append, Request.held_handling]
    · simp only [held, List.length_append, Option.toList_some, List.length_singleton] at hfree ⊢
      omega
    · -- the new permit has the next number
      rw [List.range_succ, List.map_append, List.append_assoc]
      have hswap : ([Permit.mk sem.issued] ++ sem.returned).Perm (sem.returned ++ [⟨sem.issued⟩]) :=
        List.perm_append_comm
      exact (hswap.append_left _).trans (List.append_assoc _ _ _ ▸ hacc.append_right _)

/-- The move of one request conserves the permits. -/
theorem Conserved.move {cap : ℕ} {sem sem' : Semaphore} {phase phase' : Phase}
    {before after : List Request} {admission : Option Permit}
    (hs : Conserved cap ⟨sem, before ++ ⟨admission, phase⟩ :: after⟩)
    (hmove : Move sem phase sem' phase') :
    Conserved cap ⟨sem', before ++ ⟨admission, phase'⟩ :: after⟩ := by
  obtain ⟨hfree, hadm, hacc, hold⟩ := hs
  rw [held_split] at hfree hacc
  rw [admitted_split] at hadm
  have hhold : ∀ r ∈ before ++ ⟨admission, phase'⟩ :: after, r.HoldsWhileUnfinished := by
    intro r hr
    rcases List.mem_append.mp hr with hr | hr
    · exact hold r (List.mem_append_left _ hr)
    · rcases List.mem_cons.mp hr with rfl | hr
      · exact hmove.holdsWhileUnfinished (hold _ (by simp))
      · exact hold r (by simp [hr])
  rcases @Move.permit _ _ _ _ admission hmove with ⟨hheld, rfl⟩ | ⟨p, hheld, hheld', rfl⟩
  · refine ⟨?_, by rwa [admitted_split], ?_, hhold⟩ <;> rw [held_split, hheld]
    · exact hfree
    · exact hacc
  · rw [hheld] at hfree hacc
    refine ⟨?_, by rwa [admitted_split], ?_, hhold⟩ <;> rw [held_split, hheld']
    · simp only [Semaphore.dropPermit, List.length_append, Option.toList_some,
        List.length_singleton, Option.toList_none, List.length_nil] at hfree ⊢
      omega
    · -- the permit moves from the held ones to the returned ones
      refine List.Perm.trans ?_ hacc
      simp only [Semaphore.dropPermit, Option.toList_some, Option.toList_none, List.nil_append,
        List.append_assoc, List.singleton_append]
      exact List.Perm.append_left _ List.perm_middle

/-- Every step conserves the permits. -/
theorem Conserved.step {cap : ℕ} {s s' : System} (hs : s.Conserved cap) (h : Step s s') :
    s'.Conserved cap := by
  cases h with
  | arrive sem requests => exact hs.arrive
  | move before admission after hmove => exact hs.move hmove

end System

end HdfsS3Gateway
