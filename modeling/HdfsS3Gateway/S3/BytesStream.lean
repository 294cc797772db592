import HdfsS3Gateway.Library.Prog
import HdfsS3Gateway.S3.Types

/-!
# The body of a GET response

`bytes_stream` enforces an exact content length on an upstream stream of chunks: it cuts what is
too long and turns an early end into an error. It is an unfold over the number of bytes still to
deliver. The upstream stream is polled by a command whose argument is the number of polls made
before, so that a fixed sequence of chunks is a function of that number.
-/

namespace HdfsS3Gateway

open Interaction

/-- The state of the unfold, and the number of upstream polls so far. -/
structure BytesStream where
  position : ℕ
  limit : ℕ
  remaining : ℕ
  deriving DecidableEq, Repr

namespace BytesStream

variable {Cmd : Type} {Resp : Cmd → Type}

/-- A stream that is to deliver `contentLength` bytes. -/
def new (contentLength : ℕ) : BytesStream := ⟨0, contentLength, contentLength⟩

/-- What the closure of `bytes_stream` makes of one upstream item. -/
def receive (s : BytesStream) :
    Option (Chunk HdfsError) → Option (Chunk GetBodyError) × BytesStream
  | some (.ok bytes) =>
    let bytes := if s.remaining < bytes.length then bytes.take s.remaining else bytes
    (some (.ok bytes),
      { s with position := s.position + 1, remaining := s.remaining - bytes.length })
  | some (.error e) => (some (.error (.upstream e)), { s with position := s.position + 1 })
  | none =>
    if 0 < s.remaining then
      (some (.error (.shortRead s.limit (s.limit - s.remaining))),
        { s with position := s.position + 1, remaining := 0 })
    else (none, { s with position := s.position + 1 })

/-- One step of the unfold; `poll` polls the upstream stream. -/
def next (poll : ℕ → Prog Cmd Resp (Option (Chunk HdfsError))) (s : BytesStream) :
    Prog Cmd Resp (Option (Chunk GetBodyError) × BytesStream) := do
  if s.remaining = 0 then pure (none, s)
  else
    let item ← poll s.position
    pure (s.receive item)

/-- The items of the body that a client gets from so many polls, and whether the body ended. -/
def drain (poll : ℕ → Prog Cmd Resp (Option (Chunk HdfsError))) :
    (polls : ℕ) → BytesStream → Prog Cmd Resp (List (Chunk GetBodyError) × Bool)
  | 0, _ => pure ([], false)
  | polls + 1, s => do
    match ← s.next poll with
    | (none, _) => pure ([], true)
    | (some item, s) => do
      let (items, ended) ← drain poll polls s
      pure (item :: items, ended)

/-! ## The body over a fixed sequence of chunks -/

/-- The items and the end of the body when upstream poll number `i` answers `chunks i`. -/
def deliver (chunks : ℕ → Option (Chunk HdfsError)) :
    (polls : ℕ) → BytesStream → List (Chunk GetBodyError) × Bool
  | 0, _ => ([], false)
  | polls + 1, s =>
    if s.remaining = 0 then ([], true)
    else match s.receive (chunks s.position) with
      | (none, _) => ([], true)
      | (some item, s) => (item :: (deliver chunks polls s).1, (deliver chunks polls s).2)

/-- One step of the unfold against fixed answers. -/
theorem eval_next (oracle : (c : Cmd) → Resp c)
    (poll : ℕ → Prog Cmd Resp (Option (Chunk HdfsError))) (s : BytesStream) :
    (s.next poll).eval oracle =
      if s.remaining = 0 then (none, s) else s.receive ((poll s.position).eval oracle) := by
  unfold next
  split
  · rfl
  · rw [Prog.eval_bind]
    rfl

/-- Draining against fixed answers is delivering the answers of the polls. -/
theorem eval_drain (oracle : (c : Cmd) → Resp c)
    (poll : ℕ → Prog Cmd Resp (Option (Chunk HdfsError))) (polls : ℕ) (s : BytesStream) :
    (drain poll polls s).eval oracle = deliver (fun i => (poll i).eval oracle) polls s := by
  induction polls generalizing s with
  | zero => rfl
  | succ polls ih =>
    rw [drain, deliver, Prog.eval_bind, eval_next]
    by_cases hrem : s.remaining = 0
    · rw [if_pos hrem, if_pos hrem]
      rfl
    · rw [if_neg hrem, if_neg hrem]
      cases s.receive ((poll s.position).eval oracle) with
      | mk item s' =>
        cases item with
        | none => rfl
        | some item =>
          simp only [Prog.eval_bind, ih]
          rfl

/-- The bytes of the upstream chunks from a position on, if the first so many are all bytes. -/
def upstreamBytes (chunks : ℕ → Option (Chunk HdfsError)) : (count pos : ℕ) → Option (List UInt8)
  | 0, _ => some []
  | count + 1, pos =>
    match chunks pos with
    | some (.ok bytes) => (upstreamBytes chunks count (pos + 1)).map (bytes ++ ·)
    | _ => none

/-- The bytes of the items before the first error. -/
def bytesBeforeError : List (Chunk GetBodyError) → List UInt8
  | .ok bytes :: items => bytes ++ bytesBeforeError items
  | _ => []

/-- How many bytes the items carry, errors or not. -/
def totalBytes : List (Chunk GetBodyError) → ℕ
  | [] => 0
  | .ok bytes :: items => bytes.length + totalBytes items
  | .error _ :: items => totalBytes items

/-- No item is an error. -/
def NoError (items : List (Chunk GetBodyError)) : Prop := ∀ e, .error e ∉ items

variable {chunks : ℕ → Option (Chunk HdfsError)}

/-- More chunks only add bytes at the end. -/
theorem upstreamBytes_prefix {m n pos : ℕ} {u v : List UInt8} (hmn : m ≤ n)
    (hu : upstreamBytes chunks m pos = some u) (hv : upstreamBytes chunks n pos = some v) :
    u <+: v := by
  induction m generalizing n pos u v with
  | zero =>
    obtain rfl := Option.some.inj hu
    exact List.nil_prefix
  | succ m ih =>
    obtain ⟨n, rfl⟩ : ∃ n', n = n' + 1 := ⟨n - 1, by omega⟩
    rw [upstreamBytes] at hu hv
    split at hu
    · rename_i bytes hbytes
      rw [hbytes] at hv
      obtain ⟨u', hu', rfl⟩ := Option.map_eq_some_iff.mp hu
      obtain ⟨v', hv', rfl⟩ := Option.map_eq_some_iff.mp hv
      exact (List.prefix_append_right_inj _).mpr (ih (by omega) hu' hv')
    · contradiction

/-- Enough chunks agree on the first bytes. -/
theorem upstreamBytes_take {m n pos len : ℕ} {u v : List UInt8}
    (hu : upstreamBytes chunks m pos = some u) (hv : upstreamBytes chunks n pos = some v)
    (hlu : len ≤ u.length) (hlv : len ≤ v.length) : u.take len = v.take len := by
  rcases Nat.le_total m n with h | h
  · obtain ⟨t, rfl⟩ := upstreamBytes_prefix h hu hv
    rw [List.take_append_of_le_length hlu]
  · obtain ⟨t, rfl⟩ := upstreamBytes_prefix h hv hu
    rw [List.take_append_of_le_length hlv]

/-- What one upstream item turns into while bytes remain: a cut chunk, or an error. -/
theorem receive_cases (s : BytesStream) (hrem : s.remaining ≠ 0)
    (item : Option (Chunk HdfsError)) :
    (∃ bytes, item = some (.ok bytes) ∧ s.receive item =
      (some (.ok (bytes.take s.remaining)),
        ⟨s.position + 1, s.limit, s.remaining - bytes.length⟩)) ∨
    (∃ e s', s.receive item = (some (.error e), s') ∧ s'.remaining ≤ s.remaining ∧
      ∀ bytes, item ≠ some (.ok bytes)) := by
  cases item with
  | none =>
    refine Or.inr ⟨_, _, by rw [receive, if_pos (Nat.pos_of_ne_zero hrem)], Nat.zero_le _, ?_⟩
    simp
  | some chunk =>
    cases chunk with
    | error e => exact Or.inr ⟨_, _, rfl, Nat.le_refl _, by simp⟩
    | ok bytes =>
      refine Or.inl ⟨bytes, rfl, ?_⟩
      rw [receive]
      by_cases hlt : s.remaining < bytes.length
      · have hzero : s.remaining - (bytes.take s.remaining).length = s.remaining - bytes.length := by
          rw [List.length_take]
          omega
        simp only [hlt, if_true, hzero]
      · rw [List.take_of_length_le (by omega)]
        simp only [hlt, if_false]

/-- The items never carry more bytes than remain. -/
theorem totalBytes_deliver_le (polls : ℕ) (s : BytesStream) :
    totalBytes (deliver chunks polls s).1 ≤ s.remaining := by
  induction polls generalizing s with
  | zero => exact Nat.zero_le _
  | succ polls ih =>
    rw [deliver]
    split
    · exact Nat.zero_le _
    · rename_i hrem
      rcases receive_cases s hrem (chunks s.position) with
        ⟨bytes, -, heq⟩ | ⟨e, s', heq, hle, -⟩ <;> rw [heq]
      · have hrest := ih ⟨s.position + 1, s.limit, s.remaining - bytes.length⟩
        simp only [totalBytes, List.length_take] at hrest ⊢
        omega
      · exact Nat.le_trans (ih s') hle

/-- The bytes before the first error are a prefix of the upstream bytes. -/
theorem bytesBeforeError_deliver (polls : ℕ) (s : BytesStream) :
    ∃ count u, upstreamBytes chunks count s.position = some u ∧
      bytesBeforeError (deliver chunks polls s).1 <+: u := by
  induction polls generalizing s with
  | zero => exact ⟨0, [], rfl, List.nil_prefix⟩
  | succ polls ih =>
    rw [deliver]
    split
    · exact ⟨0, [], rfl, List.nil_prefix⟩
    · rename_i hrem
      rcases receive_cases s hrem (chunks s.position) with
        ⟨bytes, hitem, heq⟩ | ⟨e, s', heq, -, -⟩ <;> rw [heq]
      · obtain ⟨count, u, hu, hpre⟩ := ih ⟨s.position + 1, s.limit, s.remaining - bytes.length⟩
        by_cases hlong : bytes.length ≤ s.remaining
        · refine ⟨count + 1, bytes ++ u, ?_, ?_⟩
          · rw [upstreamBytes, hitem]
            exact congrArg (Option.map (bytes ++ ·)) hu
          · rw [bytesBeforeError, List.take_of_length_le hlong]
            exact (List.prefix_append_right_inj _).mpr hpre
        · -- the chunk is cut, so nothing follows it
          have hdone : s.remaining - bytes.length = 0 := by omega
          have hnil : bytesBeforeError (deliver chunks polls
              ⟨s.position + 1, s.limit, s.remaining - bytes.length⟩).1 = [] := by
            cases polls <;> simp [deliver, hdone, bytesBeforeError]
          refine ⟨1, bytes, ?_, ?_⟩
          · rw [upstreamBytes, hitem]
            exact congrArg some (List.append_nil _)
          · rw [bytesBeforeError, hnil, List.append_nil]
            exact List.take_prefix _ _
      · exact ⟨0, [], rfl, List.nil_prefix⟩

/-- A body that ends without an error is the first bytes that upstream delivered, as many as were
to be delivered. -/
theorem ended_deliver {polls : ℕ} {s : BytesStream} (hend : (deliver chunks polls s).2 = true)
    (hok : NoError (deliver chunks polls s).1) :
    ∃ count u, upstreamBytes chunks count s.position = some u ∧ s.remaining ≤ u.length ∧
      bytesBeforeError (deliver chunks polls s).1 = u.take s.remaining := by
  induction polls generalizing s with
  | zero => contradiction
  | succ polls ih =>
    rw [deliver] at hend hok ⊢
    by_cases hrem : s.remaining = 0
    · refine ⟨0, [], rfl, by omega, ?_⟩
      simp [hrem, bytesBeforeError]
    · rw [if_neg hrem] at hend hok ⊢
      rcases receive_cases s hrem (chunks s.position) with
        ⟨bytes, hitem, heq⟩ | ⟨e, s', heq, -, -⟩ <;> rw [heq] at hend hok ⊢
      · obtain ⟨count, u, hu, hlen, hbytes⟩ :=
          ih hend fun e he => hok e (List.mem_cons_of_mem _ he)
        refine ⟨count + 1, bytes ++ u, ?_, ?_, ?_⟩
        · rw [upstreamBytes, hitem]
          exact congrArg (Option.map (bytes ++ ·)) hu
        · rw [List.length_append]
          change s.remaining - bytes.length ≤ u.length at hlen
          omega
        · rw [bytesBeforeError, hbytes, List.take_append]
      · exact absurd List.mem_cons_self (hok e)

/-- When upstream delivers enough bytes, a client that polls on sees the body end without an
error. -/
theorem exists_ended_deliver {count : ℕ} {s : BytesStream} {u : List UInt8}
    (hu : upstreamBytes chunks count s.position = some u) (hlen : s.remaining ≤ u.length) :
    ∃ polls, (deliver chunks polls s).2 = true ∧ NoError (deliver chunks polls s).1 := by
  induction count generalizing s u with
  | zero =>
    obtain rfl := Option.some.inj hu
    have hzero : s.remaining = 0 := by simpa using hlen
    exact ⟨1, by simp [deliver, hzero], by simp [deliver, hzero, NoError]⟩
  | succ count ih =>
    by_cases hrem : s.remaining = 0
    · exact ⟨1, by simp [deliver, hrem], by simp [deliver, hrem, NoError]⟩
    · rw [upstreamBytes] at hu
      split at hu
      · rename_i bytes hitem
        obtain ⟨u', hu', rfl⟩ := Option.map_eq_some_iff.mp hu
        rcases receive_cases s hrem (chunks s.position) with
          ⟨bytes', hitem', heq⟩ | ⟨e, s', -, -, hne⟩
        · obtain rfl : bytes = bytes' := by simpa [hitem] using hitem'
          obtain ⟨polls, hend, hok⟩ :=
            @ih ⟨s.position + 1, s.limit, s.remaining - bytes.length⟩ u' hu'
              (by rw [List.length_append] at hlen; change s.remaining - bytes.length ≤ _; omega)
          refine ⟨polls + 1, ?_, ?_⟩ <;> rw [deliver, if_neg hrem, heq]
          · exact hend
          · intro e he
            rcases List.mem_cons.mp he with he | he
            · contradiction
            · exact hok e he
        · exact absurd hitem (hne bytes)
      · contradiction

/-- When upstream delivers enough bytes, no poll of the body gives an error, and the body is the first
so many bytes once it ends. -/
theorem deliver_enough {count : ℕ} {s : BytesStream} {u : List UInt8}
    (hu : upstreamBytes chunks count s.position = some u) (hlen : s.remaining ≤ u.length)
    (polls : ℕ) : NoError (deliver chunks polls s).1 ∧
      bytesBeforeError (deliver chunks polls s).1 <+: u.take s.remaining ∧
      ((deliver chunks polls s).2 = true →
        bytesBeforeError (deliver chunks polls s).1 = u.take s.remaining) := by
  induction polls generalizing s count u with
  | zero => exact ⟨by simp [deliver, NoError], List.nil_prefix, by simp [deliver]⟩
  | succ polls ih =>
    rw [deliver]
    by_cases hrem : s.remaining = 0
    · simp [hrem, NoError, bytesBeforeError]
    · rw [if_neg hrem]
      cases count with
      | zero =>
        obtain rfl := Option.some.inj hu
        exact absurd (Nat.le_zero.mp hlen) hrem
      | succ count =>
        rw [upstreamBytes] at hu
        split at hu
        · rename_i bytes hitem
          obtain ⟨u', hu', rfl⟩ := Option.map_eq_some_iff.mp hu
          rcases receive_cases s hrem (chunks s.position) with
            ⟨bytes', hitem', heq⟩ | ⟨e, s', -, -, hne⟩
          · obtain rfl : bytes = bytes' := by simpa [hitem] using hitem'
            have hrest : s.remaining - bytes.length ≤ u'.length := by
              rw [List.length_append] at hlen
              omega
            obtain ⟨hok, hpre, hend⟩ :=
              @ih count ⟨s.position + 1, s.limit, s.remaining - bytes.length⟩ u' hu' hrest
            rw [heq, List.take_append]
            refine ⟨fun e he => ?_, (List.prefix_append_right_inj _).mpr hpre, fun hended => ?_⟩
            · rcases List.mem_cons.mp he with he | he
              · contradiction
              · exact hok e he
            · exact congrArg (bytes.take s.remaining ++ ·) (hend hended)
          · exact absurd hitem (hne bytes)
        · contradiction

end BytesStream

end HdfsS3Gateway
