import HdfsS3Gateway.S3.Calls

/-!
# GET serves exactly the requested slice

The pieces of a GET put together: the resolved window lies in the file as the metadata describes it,
its arithmetic does not overflow, the reader is only asked for a window inside its own length, and
the body is that window or ends in an error. The statements hold under any replies to the commands
of the request.
-/

namespace HdfsS3Gateway

open Interaction Overflow

/-- The window of a GET is this slice of a file of this length, and the headers say so. -/
structure SliceOf (fileLen : UInt64) (range : Option Range) (object : GetObject) (s e : ℕ) :
    Prop where
  le : s ≤ e
  le_length : e ≤ fileLen.toNat
  start : object.windowStart = s
  remaining : object.remaining = e - s
  in_reader : e ≤ object.reader.fileLength
  content_length : object.output.contentLength = (UInt64.ofNat (e - s)).toInt64
  whole : range = none → s = 0 ∧ e = fileLen.toNat ∧ object.output.contentRange = none
  requested : ∀ r, range = some r → s < e ∧
    (∀ i, (s ≤ i ∧ i < e) ↔ (Range.toByteRange r).requested fileLen.toNat i ∧ i < fileLen.toNat) ∧
    object.output.contentRange = some ("bytes " ++ toString s ++ "-" ++ toString (e - 1) ++ "/" ++
      toString fileLen.toNat)

/-- A body delivers exactly so many bytes of the upstream chunks, or an error. -/
structure ExactBody (chunks : ℕ → Option (Chunk HdfsError)) (contentLength : ℕ)
    (body : ℕ → List (Chunk GetBodyError) × Bool) : Prop where
  bounded : ∀ polls, BytesStream.totalBytes (body polls).1 ≤ contentLength
  before_error : ∀ polls, ∃ count u, BytesStream.upstreamBytes chunks count 0 = some u ∧
    BytesStream.bytesBeforeError (body polls).1 <+: u
  ends_iff : (∃ polls, (body polls).2 = true ∧ BytesStream.NoError (body polls).1) ↔
    ∃ count u, BytesStream.upstreamBytes chunks count 0 = some u ∧ contentLength ≤ u.length
  exact : ∀ polls, (body polls).2 = true → BytesStream.NoError (body polls).1 →
    ∀ count u, BytesStream.upstreamBytes chunks count 0 = some u → contentLength ≤ u.length →
      BytesStream.bytesBeforeError (body polls).1 = u.take contentLength
  content : ∀ file : List UInt8,
    (∀ count u, BytesStream.upstreamBytes chunks count 0 = some u → u <+: file) →
      ∀ polls, (body polls).2 = true → BytesStream.NoError (body polls).1 →
        BytesStream.bytesBeforeError (body polls).1 = file.take contentLength

/-- The unfold over any chunks is an exact body. -/
theorem BytesStream.exactBody (chunks : ℕ → Option (Chunk HdfsError)) (contentLength : ℕ) :
    ExactBody chunks contentLength fun polls => deliver chunks polls (new contentLength) where
  bounded polls := totalBytes_deliver_le polls _
  before_error polls := bytesBeforeError_deliver polls (new contentLength)
  ends_iff := by
    constructor
    · intro h
      obtain ⟨polls, hend, hok⟩ := h
      obtain ⟨count, u, hu, hlen, -⟩ := ended_deliver hend hok
      exact ⟨count, u, hu, hlen⟩
    · intro h
      obtain ⟨count, u, hu, hlen⟩ := h
      exact exists_ended_deliver hu hlen
  exact polls hend hok count u hu hlen := by
    obtain ⟨count', u', hu', hlen', hbytes⟩ := ended_deliver hend hok
    rw [hbytes]
    exact upstreamBytes_take hu' hu hlen' hlen
  content file hfile polls hend hok := by
    obtain ⟨count, u, hu, hlen, hbytes⟩ := ended_deliver hend hok
    obtain ⟨t, rfl⟩ := hfile count u hu
    rw [hbytes]
    exact (List.take_append_of_le_length hlen).symm

/-- A sequence of fallible steps succeeds when each step does. -/
theorem except_bind_eq_ok {ε α β : Type} {x : Except ε α} {f : α → Except ε β} {b : β} :
    (x >>= f) = .ok b ↔ ∃ a, x = .ok a ∧ f a = .ok b := by
  cases x <;> simp [bind, Except.bind]

/-- The window of a GET does not overflow any subtraction or addition. -/
theorem resolveWindow_overflowed (fileLen : UInt64) (range : Option Range) :
    (resolveWindow fileLen range).overflowed = false := by
  cases range with
  | none => rfl
  | some r =>
    rw [resolveWindow, Tracked.overflowed_bind, resolveRange_overflowed]
    cases h : (resolveRange fileLen (Range.toByteRange r)).value with
    | none => rfl
    | some w =>
      obtain ⟨s, e⟩ := w
      obtain ⟨hlt, -, -⟩ := resolveRange_eq_some h
      have hlt' := UInt64.lt_iff_toNat_lt.mp hlt
      have hes : ¬ e < s := by
        rw [UInt64.lt_iff_toNat_lt]
        omega
      have hone : ¬ e < 1 := by
        rw [UInt64.lt_iff_toNat_lt, UInt64.toNat_one]
        omega
      simp [hes, hone]

/-- The window of a GET is a slice of the file. -/
theorem resolveWindow_eq_ok {fileLen : UInt64} {range : Option Range} {w : Window}
    (h : (resolveWindow fileLen range).value = .ok w) :
    w.start.toNat ≤ w.endExclusive.toNat ∧ w.endExclusive.toNat ≤ fileLen.toNat ∧
      w.contentLength = UInt64.ofNat (w.endExclusive.toNat - w.start.toNat) ∧
      (range = none → w.start.toNat = 0 ∧ w.endExclusive = fileLen ∧ w.contentRange = none) ∧
      ∀ r, range = some r →
        (resolveRange fileLen (Range.toByteRange r)).value = some (w.start, w.endExclusive) ∧
        w.contentRange = some (fmtContentRange w.start (w.endExclusive - 1) fileLen) := by
  cases range with
  | none =>
    obtain rfl := Except.ok.inj h
    exact ⟨Nat.zero_le _, Nat.le_refl _, by simp, fun _ => ⟨rfl, rfl, rfl⟩, by simp⟩
  | some r =>
    rw [resolveWindow, Tracked.value_bind] at h
    cases hr : (resolveRange fileLen (Range.toByteRange r)).value with
    | none =>
      rw [hr] at h
      contradiction
    | some p =>
      obtain ⟨s, e⟩ := p
      rw [hr] at h
      simp only [Tracked.value_bind, value_subU64, Tracked.value_pure, Except.ok.injEq] at h
      subst h
      obtain ⟨hlt, hle, -⟩ := resolveRange_eq_some hr
      rw [UInt64.lt_iff_toNat_lt] at hlt
      rw [UInt64.le_iff_toNat_le] at hle
      refine ⟨Nat.le_of_lt hlt, hle, ?_, by simp, ?_⟩
      · have hsub : (e - s).toNat = e.toNat - s.toNat :=
          UInt64.toNat_sub_of_le _ _ (UInt64.le_iff_toNat_le.mpr (by omega))
        rw [← hsub, UInt64.ofNat_toNat]
      · intro r' hr'
        obtain rfl := Option.some.inj hr'
        exact ⟨hr, rfl⟩

namespace HdfsGateway

variable (self : HdfsGateway)

/-- What a prepared GET knows: the window as offsets, and its headers. -/
theorem prepare_eq_ok {input : GetObjectInput} {path : Str} {status : FileMeta} {p : Prepared}
    (h : self.prepare input path status = .ok p) :
    ∃ w, (resolveWindow status.length input.range).value = .ok w ∧
      p.windowStart = w.start.toNat ∧ p.windowEnd = w.endExclusive.toNat ∧
      w.endExclusive.toNat ≤ self.crates.usizeMax ∧
      p.output.contentLength = w.contentLength.toInt64 ∧
      p.output.contentRange = w.contentRange ∧
      p.output.eTag = .strong (fallbackEtag status.length status.modificationTime) := by
  unfold prepare at h
  split at h
  · contradiction
  · obtain ⟨-, -, h⟩ := except_bind_eq_ok.mp h
    obtain ⟨w, hw, h⟩ := except_bind_eq_ok.mp h
    split at h
    · rename_i windowStart windowEnd hstart hend
      obtain rfl := Except.ok.inj h
      unfold usizeTryFrom at hstart hend
      split at hstart <;> split at hend
      case isTrue.isTrue hle =>
        exact ⟨w, hw, (Option.some.inj hstart).symm, (Option.some.inj hend).symm, hle, rfl, rfl, rfl⟩
      all_goals contradiction
    · contradiction

/-- A reader that was opened for a prepared GET is long enough. -/
theorem openObject_yields {path path' : Str} {status : FileMeta} {p : Prepared}
    {object : GetObject} (h : (self.openObject path status p).Yields (.ok (path', object))) :
    path' = path ∧ (self.openReader path status).Yields (.ok object.reader) ∧
      p.windowEnd ≤ object.reader.fileLength ∧ object.output = p.output ∧
      object.windowStart = p.windowStart ∧
      object.remaining = (subUsize self.crates.usizeMax p.windowEnd p.windowStart).value := by
  unfold openObject at h
  rw [Prog.yields_bind] at h
  obtain ⟨opened, hreader, h⟩ := h
  split at h
  · contradiction
  · rename_i reader
    split at h
    · obtain ⟨_, _, h⟩ := h
      have heq : (.error { code := .internalError } : Except S3Error (Str × GetObject)) =
        .ok (path', object) := h
      contradiction
    · rename_i hfits
      obtain ⟨rfl, rfl⟩ : path = path' ∧ _ = object := by simpa using h
      exact ⟨rfl, hreader, Nat.le_of_not_lt hfits, rfl, rfl, rfl⟩

/-- What a successful GET went through. -/
theorem getObject_yields {input : GetObjectInput} {path : Str} {object : GetObject}
    (h : (self.getObject input).Yields (.ok (path, object))) :
    ∃ status p, self.resolvePath input.bucket input.key = .ok path ∧
      (self.fileMeta path).Yields (.ok status) ∧ self.prepare input path status = .ok p ∧
      (self.openReader path status).Yields (.ok object.reader) ∧
      p.windowEnd ≤ object.reader.fileLength ∧ object.output = p.output ∧
      object.windowStart = p.windowStart ∧
      object.remaining = (subUsize self.crates.usizeMax p.windowEnd p.windowStart).value := by
  unfold getObject at h
  split at h
  · contradiction
  · rename_i path' hpath
    rw [Prog.yields_bind] at h
    obtain ⟨result, hstatus, h⟩ := h
    split at h
    · contradiction
    · rename_i status
      split at h
      · contradiction
      · rename_i p hp
        obtain ⟨rfl, hopen⟩ := self.openObject_yields h
        exact ⟨status, p, hpath, hstatus, hp, hopen⟩

/-- A successful GET serves a slice of the file that its metadata describes. -/
theorem sliceOf_getObject {input : GetObjectInput} {path : Str} {object : GetObject}
    (h : (self.getObject input).Yields (.ok (path, object))) :
    ∃ status, (self.fileMeta path).Yields (.ok status) ∧
      ∃ s e, SliceOf status.length input.range object s e := by
  obtain ⟨status, p, -, hstatus, hp, -, hfits, hout, hstart, hrem⟩ := self.getObject_yields h
  obtain ⟨w, hw, hws, hwe, hmax, hlen, hrange, -⟩ := self.prepare_eq_ok hp
  obtain ⟨hle, hlefile, hclen, hwhole, hreq⟩ := resolveWindow_eq_ok hw
  have hrem' : object.remaining = w.endExclusive.toNat - w.start.toNat := by
    rw [hrem, hws, hwe, value_subUsize hmax hle]
  refine ⟨status, hstatus, w.start.toNat, w.endExclusive.toNat, hle, hlefile, ?_, hrem', ?_, ?_, ?_,
    ?_⟩
  · rw [hstart, hws]
  · rw [← hwe]
    exact hfits
  · rw [hout, hlen, hclen]
  · intro hnone
    obtain ⟨h0, hend, hcr⟩ := hwhole hnone
    exact ⟨h0, by rw [hend], by rw [hout, hrange, hcr]⟩
  · intro r hr
    obtain ⟨hresolve, hcr⟩ := hreq r hr
    obtain ⟨hlt, -, hmem⟩ := resolveRange_eq_some hresolve
    have hlt' := UInt64.lt_iff_toNat_lt.mp hlt
    refine ⟨hlt', hmem, ?_⟩
    rw [hout, hrange, hcr, fmtContentRange, toNat_sub_one (Nat.zero_lt_of_lt hlt')]

/-- A poll of the body is a poll of the reader, whatever is evicted on the way. -/
theorem eval_pollBody (oracle : (c : Cmd) → c.Resp) (path : Str) (object : GetObject)
    (position : ℕ) : (pollBody path object position).eval oracle =
      oracle (.upstream (.pollRange object.reader object.windowStart object.remaining position)) := by
  unfold pollBody
  rw [Prog.eval_bind]
  split
  · rename_i err herr
    exact herr.symm
  · rfl

/-- The window that a prepared GET hands to the reader is not reversed. -/
theorem prepare_window_overflowed {input : GetObjectInput} {path : Str} {status : FileMeta}
    {p : Prepared} (h : self.prepare input path status = .ok p) :
    (subUsize self.crates.usizeMax p.windowEnd p.windowStart).overflowed = false := by
  obtain ⟨w, hw, hstart, hend, -⟩ := self.prepare_eq_ok h
  have hle := (resolveWindow_eq_ok hw).1
  rw [overflowed_subUsize, hstart, hend]
  exact decide_eq_false (Nat.not_lt.mpr hle)

end HdfsGateway

/-- The reader is only polled for a window inside its length. -/
def Upstream.InReader : Upstream → Prop
  | .pollRange reader start len _ => start + len ≤ reader.fileLength
  | _ => True

namespace HdfsGateway

variable (self : HdfsGateway)

/-- A GET, under any replies: a range resolves exactly when it asks for some byte of the file, and
then to the bytes it asks for; the arithmetic never overflows; the reader is only polled inside its
length; a success serves a slice of the file that the metadata describes, with the headers that say
so; and the body is exactly that many upstream bytes, or ends in an error. -/
theorem getObject_serves_slice :
    (∀ fileLen range, ((resolveRange fileLen range).value.isSome ↔
        ∃ i, range.requested fileLen.toNat i ∧ i < fileLen.toNat) ∧
      ∀ s e, (resolveRange fileLen range).value = some (s, e) → s < e ∧ e ≤ fileLen ∧
        ∀ i : ℕ, (s.toNat ≤ i ∧ i < e.toNat) ↔
          range.requested fileLen.toNat i ∧ i < fileLen.toNat) ∧
    (∀ fileLen range, (resolveWindow fileLen range).overflowed = false) ∧
    (∀ input path status p, self.prepare input path status = .ok p →
      (subUsize self.crates.usizeMax p.windowEnd p.windowStart).overflowed = false) ∧
    (∀ input polls, (self.serveGet input polls).Always (OnUpstream Upstream.InReader)) ∧
    (∀ input path object, (self.getObject input).Yields (.ok (path, object)) →
      ∃ status, (self.fileMeta path).Yields (.ok status) ∧
        ∃ s e, SliceOf status.length input.range object s e) ∧
    ∀ path object (oracle : (c : Cmd) → c.Resp), ExactBody
      (fun i => oracle (.upstream (.pollRange object.reader object.windowStart object.remaining i)))
      object.remaining
      fun polls => (BytesStream.drain (pollBody path object) polls (.new object.remaining)).eval
        oracle := by
  refine ⟨fun fileLen range => ⟨resolveRange_isSome_iff fileLen range,
    fun s e h => resolveRange_eq_some h⟩, resolveWindow_overflowed,
    fun input path status p h => self.prepare_window_overflowed h, fun input polls => ?_,
    fun input path object h => self.sliceOf_getObject h, fun path object oracle => ?_⟩
  · refine self.always_serveGet (fun path _ => ⟨trivial, fun _ => trivial⟩) ?_
    intro path object h position
    obtain ⟨status, -, s, e, hslice⟩ := self.sliceOf_getObject h
    have hle := hslice.le
    have hin := hslice.in_reader
    change object.windowStart + object.remaining ≤ object.reader.fileLength
    rw [hslice.start, hslice.remaining]
    omega
  · simp only [BytesStream.eval_drain, eval_pollBody]
    exact BytesStream.exactBody _ _

end HdfsGateway

end HdfsS3Gateway
