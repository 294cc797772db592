import HdfsS3Gateway.Library.Transcript
import HdfsS3Gateway.S3.Operations
import Mathlib.Data.List.Perm.Subperm

/-!
# Request ids

Every operation mints its id before it does anything else, and logs under this id when it starts and
when it completes. The counter of the process gives every request another number, until it wraps after
`2 ^ 64` requests, so an id belongs to one request: a client that is answered can find the two lines of
its request in the log, and they say how it was answered.
-/

namespace HdfsS3Gateway

open Interaction

/-! ## Ids and headers -/

/-- The id that is minted at this time with this number. -/
def requestIdOf (nanos : ℕ) (seq : UInt64) : String :=
  String.ofList (Nat.toDigits 16 (nanos / 1000)) ++ "-" ++ lowerHex seq

/-- The digits of a number are hexadecimal digits. -/
theorem mem_toDigits {n : ℕ} {c : Char} (h : c ∈ Nat.toDigits 16 n) : ∃ d < 16, c = Nat.digitChar d := by
  induction n using Nat.strongRecOn with
  | ind n ih =>
    rw [Nat.toDigits_eq_if (by omega)] at h
    split at h
    · rename_i hlt
      exact ⟨n, hlt, List.mem_singleton.mp h⟩
    · rcases List.mem_append.mp h with h | h
      · exact ih (n / 16) (by omega) h
      · exact ⟨n % 16, by omega, List.mem_singleton.mp h⟩

/-- An id names the number of its request. -/
theorem requestIdOf_inj {nanos nanos' : ℕ} {seq seq' : UInt64}
    (h : requestIdOf nanos seq = requestIdOf nanos' seq') : seq = seq' := by
  have hlist := congrArg String.toList h
  simp only [requestIdOf, lowerHex, String.toList_append, String.toList_ofList,
    List.append_assoc] at hlist
  change _ ++ '-' :: _ = _ ++ '-' :: _ at hlist
  obtain ⟨-, -, hseq⟩ := (List.append_cons_inj_of_notMem (dash_not_mem_toDigits _)
    (dash_not_mem_toDigits _)).mp hlist
  exact UInt64.toNat_inj.mp (toDigits_injective hseq)

/-- Every id is a header value. -/
theorem headerValueFromStr_requestIdOf (nanos : ℕ) (seq : UInt64) :
    headerValueFromStr (requestIdOf nanos seq) = some (requestIdOf nanos seq) := by
  have hdigit : ∀ d < 16, (Nat.digitChar d == '\t' ||
      (32 ≤ (Nat.digitChar d).toNat && (Nat.digitChar d).toNat < 127)) = true := by decide
  apply if_pos
  rw [List.all_eq_true]
  intro c hc
  simp only [requestIdOf, lowerHex, String.toList_append, String.toList_ofList,
    List.append_assoc, List.mem_append] at hc
  rcases hc with hc | hc | hc
  · obtain ⟨d, hd, rfl⟩ := mem_toDigits hc
    exact hdigit d hd
  · rw [show c = '-' by simpa using hc]
    decide
  · obtain ⟨d, hd, rfl⟩ := mem_toDigits hc
    exact hdigit d hd

theorem HeaderMap.get_insert (headers : HeaderMap) (name value : String) :
    (headers.insert name value).get name = some value := by
  have hnone : (headers.filter fun h => h.1 != name).find? (fun h => h.1 == name) = none := by
    simp [List.find?_eq_none]
  rw [HeaderMap.get, HeaderMap.insert, List.find?_append, hnone]
  simp

theorem HeaderMap.get_insert_ne (headers : HeaderMap) {name other : String} (value : String)
    (hne : other ≠ name) : (headers.insert name value).get other = headers.get other := by
  have hfind : (headers.filter fun h => h.1 != name).find? (fun h => h.1 == other) =
      headers.find? fun h => h.1 == other := by
    rw [List.find?_filter]
    congr 1
    funext h
    by_cases heq : h.1 = other <;> simp [heq, hne]
  rw [HeaderMap.get, HeaderMap.get, HeaderMap.insert, List.find?_append, hfind]
  simp [hne.symm]

/-- The answer carries this request id. -/
def Carries (id : String) : Except ErrorResponse (S3Response OpOutput) → Prop
  | .ok resp => resp.headers.get xAmzRequestId = some id
  | .error err => err.requestId = some id ∧ ∃ headers, err.headers = some headers ∧
      headers.get xAmzRequestId = some id ∧ headers.get "content-type" = some "application/xml"

/-! ## Transcripts of operations -/

/-- The number that an executed command drew. -/
def drawOf : Sigma OpCmd.Resp → Option UInt64
  | ⟨.fetchAdd, seq⟩ => some seq
  | _ => none

/-- The lines that are logged in a transcript. -/
def linesOf (log : List (Sigma OpCmd.Resp)) : List LogLine := log.filterMap lineOf

/-- The numbers that are drawn in a transcript. -/
def drawsOf (log : List (Sigma OpCmd.Resp)) : List UInt64 := log.filterMap drawOf

section Transcripts

variable {α : Type} {log : List (Sigma OpCmd.Resp)} {a : α}

/-- A part that the gateway runs logs nothing and draws nothing. -/
theorem inner_runs {p : Req α} (h : (inner p).Runs log a) : linesOf log = [] ∧ drawsOf log = [] := by
  have honly : (inner p).Always fun c => ∃ c', c = OpCmd.gateway c' := by
    apply Prog.always_handle _ p p.always_true
    intro c _
    exact ⟨⟨c, rfl⟩, fun _ => trivial⟩
  have hall := h.always honly
  constructor <;>
  · apply List.filterMap_eq_nil_iff.mpr
    rintro ⟨c, r⟩ he
    obtain ⟨c', hc⟩ := hall _ he
    obtain rfl : c = .gateway c' := hc
    rfl

/-- An operation starts with minting its id and logging it. -/
theorem new_runs {op : String} {f : RequestLog → Op α} (h : (RequestLog.new op >>= f).Runs log a) :
    ∃ (nanos : ℕ) (seq : UInt64) (rest : List (Sigma OpCmd.Resp)),
      log = ⟨.systemTime, nanos⟩ :: ⟨.fetchAdd, seq⟩ ::
        ⟨.info (.started (requestIdOf nanos seq) op), ()⟩ :: rest ∧
      (f { op, requestId := requestIdOf nanos seq }).Runs rest a := by
  obtain ⟨nanos, rest, rfl, hdraw⟩ := Prog.runs_call.mp h
  obtain ⟨seq, rest, rfl, hstart⟩ := Prog.runs_call.mp hdraw
  obtain ⟨⟨⟩, rest, rfl, hrest⟩ := Prog.runs_call.mp hstart
  exact ⟨nanos, seq, rest, rfl, hrest⟩

/-- An operation that fails logs that it completed. -/
theorem fail_runs {requestLog : RequestLog} {err : S3Error} {reply : Reply}
    (h : (requestLog.fail err).Runs log reply) :
    log = [⟨.info (.completed requestLog.requestId requestLog.op (requestLog.hdfsPath.getD [])
        requestLog.bytesServed requestLog.ok), ()⟩] ∧
      reply = .answered (.error (requestLog.attach err)) none := by
  obtain ⟨⟨⟩, rest, rfl, hrest⟩ := Prog.runs_call.mp h
  obtain ⟨rfl, rfl⟩ := Prog.runs_ret.mp hrest
  exact ⟨rfl, rfl⟩

/-- So does one that succeeds. -/
theorem succeed_runs {requestLog : RequestLog} {output : OpOutput} {f : S3Response OpOutput → Op α}
    (h : (requestLog.succeed output >>= f).Runs log a) :
    ∃ rest : List (Sigma OpCmd.Resp),
      log = ⟨.info (.completed requestLog.requestId requestLog.op (requestLog.hdfsPath.getD [])
        requestLog.bytesServed true), ()⟩ :: rest ∧
      (f (withRequestId { output } requestLog).1).Runs rest a := by
  obtain ⟨⟨⟩, rest, rfl, hrest⟩ := Prog.runs_call.mp h
  exact ⟨rest, rfl, hrest⟩

end Transcripts

/-! ## What an operation logs -/

/-- The bytes that a response is logged with. -/
def servedBytes : Except ErrorResponse (S3Response OpOutput) → UInt64
  | .ok ⟨.getObject object, _⟩ => object.output.contentLength.toUInt64
  | _ => 0

namespace HdfsGateway

variable (self : HdfsGateway)

/-- The path that an operation is logged with: that of the key of a HEAD or a GET, once it is known. -/
def loggedPath : Operation → Str
  | .read (.headObject input) => ((self.resolvePath input.bucket input.key).toOption).getD []
  | .read (.getObject input _) => ((self.resolvePath input.bucket input.key).toOption).getD []
  | _ => []

/-- The two lines of an operation that was answered. -/
def loggedLines (id : String) (op : Operation) (result : Except ErrorResponse (S3Response OpOutput)) :
    List LogLine :=
  [.started id op.name,
    .completed id op.name (self.loggedPath op) (servedBytes result) result.isOk]

/-- What an operation does once it has logged that it started: it draws nothing, and when it is
answered, it has logged that it completed. -/
structure Completes (op : Operation) (id : String) (log : List (Sigma OpCmd.Resp)) (reply : Reply) :
    Prop where
  draws : drawsOf log = []
  lines : ∀ line ∈ linesOf log, line.requestId = id
  answered : ∀ result body, reply = .answered result body →
    linesOf log = [.completed id op.name (self.loggedPath op) (servedBytes result) result.isOk] ∧
      Carries id result

/-- An operation draws one number, and logs under its id. -/
def Logs (op : Operation) (log : List (Sigma OpCmd.Resp)) (reply : Reply) : Prop :=
  ∃ (nanos : ℕ) (seq : UInt64) (rest : List (Sigma OpCmd.Resp)),
    log = ⟨.systemTime, nanos⟩ :: ⟨.fetchAdd, seq⟩ ::
      ⟨.info (.started (requestIdOf nanos seq) op.name), ()⟩ :: rest ∧
    self.Completes op (requestIdOf nanos seq) rest reply

variable {self} {op : Operation} {log : List (Sigma OpCmd.Resp)} {reply : Reply} {nanos : ℕ}
  {seq : UInt64}

/-- The log of an operation that has its id and its path. -/
structure Names (self : HdfsGateway) (op : Operation) (id : String) (requestLog : RequestLog) : Prop where
  requestId : requestLog.requestId = id
  name : requestLog.op = op.name
  path : requestLog.hdfsPath.getD [] = self.loggedPath op

/-- An operation that fails completes. -/
theorem completes_fail {requestLog : RequestLog} {err : S3Error}
    (hlog : self.Names op (requestIdOf nanos seq) requestLog) (hbytes : requestLog.bytesServed = 0)
    (hok : requestLog.ok = false) (h : (requestLog.fail err).Runs log reply) :
    self.Completes op (requestIdOf nanos seq) log reply := by
  obtain ⟨hid, hop, hpath⟩ := hlog
  obtain ⟨rfl, rfl⟩ := fail_runs h
  rw [hid, hop, hpath, hbytes, hok]
  refine ⟨rfl, by simp [linesOf, lineOf, LogLine.requestId], fun result body heq => ?_⟩
  obtain ⟨rfl, rfl⟩ := Reply.answered.inj heq
  refine ⟨rfl, congrArg some hid, _, rfl, ?_, HeaderMap.get_insert _ _ _⟩
  rw [hid, headerValueFromStr_requestIdOf, HeaderMap.get_insert_ne _ _ (by decide)]
  exact HeaderMap.get_insert _ _ _

/-- So does one that succeeds, and then streams its body. -/
theorem completes_succeed {requestLog : RequestLog} {output : OpOutput}
    {f : S3Response OpOutput → Op Reply} (hlog : self.Names op (requestIdOf nanos seq) requestLog)
    (hbytes : ∀ headers, servedBytes (.ok ⟨output, headers⟩) = requestLog.bytesServed)
    (hf : ∀ resp rest reply, (f resp).Runs rest reply →
      linesOf rest = [] ∧ drawsOf rest = [] ∧ ∃ body, reply = .answered (.ok resp) body)
    (h : (requestLog.succeed output >>= f).Runs log reply) :
    self.Completes op (requestIdOf nanos seq) log reply := by
  obtain ⟨hid, hop, hpath⟩ := hlog
  obtain ⟨rest, rfl, hrest⟩ := succeed_runs h
  obtain ⟨hlines, hdraws, body, rfl⟩ := hf _ _ _ hrest
  have hall : linesOf (⟨.info (.completed requestLog.requestId requestLog.op
      (requestLog.hdfsPath.getD []) requestLog.bytesServed true), ()⟩ :: rest) =
      [.completed (requestIdOf nanos seq) op.name (self.loggedPath op) requestLog.bytesServed true] := by
    rw [hid, hop, hpath]
    exact congrArg (List.cons _) hlines
  refine ⟨hdraws, by simp [hall, LogLine.requestId], fun result body' heq => ?_⟩
  obtain ⟨rfl, rfl⟩ := Reply.answered.inj heq
  unfold withRequestId at *
  simp only [hid, headerValueFromStr_requestIdOf] at *
  refine ⟨?_, HeaderMap.get_insert _ _ _⟩
  rw [hall, hbytes]
  rfl

/-- The path of a key is recorded once it is known. -/
theorem logPath_eq (self : HdfsGateway) (name id : String) (bucket key : Str) :
    self.logPath { op := name, requestId := id } bucket key =
      { op := name, requestId := id, hdfsPath := (self.resolvePath bucket key).toOption } := by
  unfold logPath
  cases self.resolvePath bucket key <;> rfl

/-- What is not a GET answers at once. -/
theorem answered_runs (resp : S3Response OpOutput) {rest : List (Sigma OpCmd.Resp)}
    (h : (pure (.answered (.ok resp) none) : Op Reply).Runs rest reply) :
    linesOf rest = [] ∧ drawsOf rest = [] ∧ ∃ body, reply = .answered (.ok resp) body := by
  obtain ⟨rfl, rfl⟩ := Prog.runs_ret.mp h
  exact ⟨rfl, rfl, none, rfl⟩

/-- What the gateway ran before does not show in the log. -/
theorem Completes.after {id : String} {own : List (Sigma OpCmd.Resp)}
    (h : self.Completes op id log reply) (hown : linesOf own = [] ∧ drawsOf own = []) :
    self.Completes op id (own ++ log) reply := by
  have hlines : linesOf (own ++ log) = linesOf log := by
    rw [linesOf, List.filterMap_append, ← linesOf, ← linesOf, hown.1, List.nil_append]
  have hdraws : drawsOf (own ++ log) = drawsOf log := by
    rw [drawsOf, List.filterMap_append, ← drawsOf, ← drawsOf, hown.2, List.nil_append]
  obtain ⟨hnone, hids, hanswered⟩ := h
  exact ⟨hdraws.trans hnone, hlines ▸ hids, hlines ▸ hanswered⟩

/-- Every operation logs so. -/
theorem operate_logs (h : (self.operate op).Runs log reply) : self.Logs op log reply := by
  cases op with
  | headBucket bucket =>
    obtain ⟨nanos, seq, rest, rfl, hrest⟩ := new_runs h
    refine ⟨nanos, seq, rest, rfl, ?_⟩
    have hnames : self.Names (.headBucket bucket) (requestIdOf nanos seq)
        { op := "HeadBucket", requestId := requestIdOf nanos seq } := ⟨rfl, rfl, rfl⟩
    split at hrest
    · exact completes_fail hnames rfl rfl hrest
    · exact completes_succeed hnames (fun _ => rfl) (fun resp _ _ => answered_runs resp) hrest
  | listBuckets =>
    obtain ⟨nanos, seq, rest, rfl, hrest⟩ := new_runs h
    obtain ⟨now, rest, rfl, hdone⟩ := Prog.runs_call.mp hrest
    refine ⟨nanos, seq, _, rfl, ?_⟩
    have hnames : self.Names .listBuckets (requestIdOf nanos seq)
        { op := "ListBuckets", requestId := requestIdOf nanos seq } := ⟨rfl, rfl, rfl⟩
    have hcompletes := completes_succeed hnames (fun _ => rfl) (fun resp _ _ => answered_runs resp) hdone
    have hclock : linesOf [⟨.systemTime, now⟩] = [] ∧ drawsOf [⟨.systemTime, now⟩] = [] := ⟨rfl, rfl⟩
    exact hcompletes.after hclock
  | write op =>
    have hdeny : write op = denyWrite op.name := by cases op <;> rfl
    rw [operate, hdeny] at h
    obtain ⟨nanos, seq, rest, rfl, hrest⟩ := new_runs h
    exact ⟨nanos, seq, rest, rfl, completes_fail ⟨rfl, rfl, rfl⟩ rfl rfl hrest⟩
  | probe op =>
    have hprobe : probe op = answerProbe op.name op := by cases op <;> rfl
    rw [operate, hprobe] at h
    obtain ⟨nanos, seq, rest, rfl, hrest⟩ := new_runs h
    exact ⟨nanos, seq, rest, rfl,
      completes_succeed ⟨rfl, rfl, rfl⟩ (fun _ => rfl) (fun resp _ _ => answered_runs resp) hrest⟩
  | read req =>
    cases req with
    | headObject input =>
      obtain ⟨nanos, seq, rest, rfl, hrest⟩ := new_runs h
      refine ⟨nanos, seq, rest, rfl, ?_⟩
      obtain ⟨own, rest, result, rfl, hinner, hdone⟩ := Prog.runs_bind.mp hrest
      refine Completes.after ?_ (inner_runs hinner)
      rw [logPath_eq] at hdone
      cases result with
      | error err => exact completes_fail ⟨rfl, rfl, rfl⟩ rfl rfl hdone
      | ok output =>
        exact completes_succeed ⟨rfl, rfl, rfl⟩ (fun _ => rfl) (fun resp _ _ => answered_runs resp) hdone
    | getObject input polls =>
      obtain ⟨nanos, seq, rest, rfl, hrest⟩ := new_runs h
      refine ⟨nanos, seq, rest, rfl, ?_⟩
      obtain ⟨own, rest, result, rfl, hinner, hdone⟩ := Prog.runs_bind.mp hrest
      refine Completes.after ?_ (inner_runs hinner)
      rw [logPath_eq] at hdone
      cases result with
      | error err => exact completes_fail ⟨rfl, rfl, rfl⟩ rfl rfl hdone
      | ok found =>
        -- the body is polled when the log has been dropped
        refine completes_succeed ⟨rfl, rfl, rfl⟩ (fun _ => rfl) (fun resp rest reply hbody => ?_) hdone
        obtain ⟨own, rest, body, rfl, hdrain, hreply⟩ := Prog.runs_bind.mp hbody
        obtain ⟨rfl, rfl⟩ := Prog.runs_ret.mp hreply
        rw [List.append_nil]
        obtain ⟨hlines, hdraws⟩ := inner_runs hdrain
        exact ⟨hlines, hdraws, _, rfl⟩
    | listObjectsV2 input fuel =>
      obtain ⟨nanos, seq, rest, rfl, hrest⟩ := new_runs h
      refine ⟨nanos, seq, rest, rfl, ?_⟩
      obtain ⟨own, rest, result, rfl, hinner, hdone⟩ := Prog.runs_bind.mp hrest
      refine Completes.after ?_ (inner_runs hinner)
      have hnames : self.Names (.read (.listObjectsV2 input fuel)) (requestIdOf nanos seq)
          { op := "ListObjectsV2", requestId := requestIdOf nanos seq } := ⟨rfl, rfl, rfl⟩
      cases result with
      | ok output =>
        exact completes_succeed hnames (fun _ => rfl) (fun resp _ _ => answered_runs resp) hdone
      | error failed =>
        cases failed with
        | response err => exact completes_fail hnames rfl rfl hdone
        | outOfFuel =>
          obtain ⟨rfl, rfl⟩ := Prog.runs_ret.mp hdone
          exact ⟨rfl, by simp [linesOf], by simp⟩

end HdfsGateway

/-! ## The numbers of the requests -/

namespace Service

variable {crates : Crates} {H : Type}

/-- What was executed, by whom. -/
def recording (crates : Crates) (hdfs : Hdfs H) : Recording (serviceMachine crates hdfs) where
  log := executed
  exec h := by cases h <;> rfl
  outside h := by
    obtain ⟨v, -, rfl⟩ := h
    rfl

/-- The numbers that were drawn, with who drew them. -/
def draws (s : Service crates H) : List (ℕ × UInt64) :=
  s.executed.filterMap fun e => (drawOf e.2).map fun seq => (e.1, seq)

/-- The counter counts the numbers that were drawn, and they come in order. -/
structure Counted (s : Service crates H) : Prop where
  counter : s.requestSeq = UInt64.ofNat s.draws.length
  inOrder : s.draws.map Prod.snd = (List.range s.draws.length).map UInt64.ofNat

/-- Up to the wrap of the counter no number is drawn twice. -/
theorem Counted.unique {s : Service crates H} (h : s.Counted) (hcount : s.draws.length ≤ 2 ^ 64)
    {tid tid' : ℕ} {seq : UInt64} (hseq : (tid, seq) ∈ s.draws) (hseq' : (tid', seq) ∈ s.draws) :
    tid = tid' := by
  have hnodup : (s.draws.map Prod.snd).Nodup := by
    rw [h.inOrder]
    refine List.Nodup.map_on (fun i hi j hj heq => ?_) List.nodup_range
    have hlt : ∀ k ∈ List.range s.draws.length, (UInt64.ofNat k).toNat = k := fun k hk =>
      UInt64.toNat_ofNat_of_lt' ((List.mem_range.mp hk).trans_le hcount)
    rw [← hlt i hi, ← hlt j hj, heq]
  exact congrArg Prod.fst (List.inj_on_of_nodup_map hnodup hseq hseq' rfl)

theorem Counted.congr {s s' : Service crates H} (h : s.Counted) (hseq : s'.requestSeq = s.requestSeq)
    (hdraws : s'.draws = s.draws) : s'.Counted :=
  ⟨by rw [hseq, hdraws, h.counter], by rw [hdraws, h.inOrder]⟩

/-- Drawing a number counts it. -/
theorem Counted.exec {s s' : Service crates H} {hdfs : Hdfs H} {tid : ℕ} {c : OpCmd} {r : c.Resp}
    (h : s.Counted) (hexec : Exec hdfs tid s c r s') : s'.Counted := by
  cases hexec with
  | fetchAdd =>
    have hdraws : draws { s with
        requestSeq := s.requestSeq + 1
        executed := s.executed ++ [(tid, ⟨.fetchAdd, s.requestSeq⟩)] } =
        s.draws ++ [(tid, s.requestSeq)] := List.filterMap_append
    constructor
    · rw [hdraws, List.length_append, List.length_singleton, UInt64.ofNat_add, ← h.counter]
      rfl
    · rw [hdraws, List.map_append, List.length_append, List.length_singleton, List.range_succ,
        List.map_append, h.inOrder, h.counter]
      rfl
  | gateway | systemTime | info => exact h.congr rfl (by simp [draws, drawOf])

/-- Everything that one program drew. -/
theorem mem_draws {s : Service crates H} {hdfs : Hdfs H} {tid : ℕ} {seq : UInt64} :
    (tid, seq) ∈ s.draws ↔ seq ∈ drawsOf ((recording crates hdfs).own tid s) := by
  simp only [draws, drawsOf, Recording.own, recording, List.mem_filterMap, List.mem_map,
    List.mem_filter, decide_eq_true_eq, Option.map_eq_some_iff]
  constructor
  · rintro ⟨e, he, seq', hdraw, heq⟩
    obtain ⟨rfl, rfl⟩ := Prod.mk.inj heq
    exact ⟨e.2, ⟨e, ⟨he, rfl⟩, rfl⟩, hdraw⟩
  · rintro ⟨x, ⟨e, ⟨he, rfl⟩, rfl⟩, hdraw⟩
    exact ⟨e, he, seq, hdraw, rfl⟩

/-- How many numbers one program drew. -/
theorem count_draws {s : Service crates H} {hdfs : Hdfs H} {tid : ℕ} :
    (s.draws.map Prod.fst).count tid = (drawsOf ((recording crates hdfs).own tid s)).length := by
  change ((s.executed.filterMap fun e => (drawOf e.2).map fun seq => (e.1, seq)).map Prod.fst).count
    tid = ((((s.executed.filter fun e => e.1 = tid).map Prod.snd)).filterMap drawOf).length
  induction s.executed with
  | nil => rfl
  | cons e executed ih =>
    by_cases htid : e.1 = tid
    · rw [List.filter_cons_of_pos (by simpa using htid), List.map_cons, List.filterMap_cons,
        List.filterMap_cons]
      cases drawOf e.2 with
      | none => exact ih
      | some seq => simp [htid, ih]
    · rw [List.filter_cons_of_neg (by simpa using htid), List.filterMap_cons]
      cases drawOf e.2 with
      | none => exact ih
      | some seq => simp [htid, ih]

/-- If one program logged everything under an id, these are its own lines. -/
theorem filter_lines {s : Service crates H} {hdfs : Hdfs H} {tid : ℕ} {id : String}
    (h : ∀ e ∈ s.executed, ∀ line, lineOf e.2 = some line → line.requestId = id → e.1 = tid) :
    s.lines.filter (fun line => line.requestId = id) =
      (linesOf ((recording crates hdfs).own tid s)).filter fun line => line.requestId = id := by
  change (s.executed.filterMap fun e => lineOf e.2).filter _ =
    ((((s.executed.filter fun e => e.1 = tid).map Prod.snd)).filterMap lineOf).filter _
  generalize s.executed = executed at h
  induction executed with
  | nil => rfl
  | cons e executed ih =>
    have hrest := ih fun e' he' => h e' (List.mem_cons_of_mem _ he')
    have hhead := h e List.mem_cons_self
    by_cases htid : e.1 = tid
    · rw [List.filter_cons_of_pos (by simpa using htid), List.map_cons, List.filterMap_cons,
        List.filterMap_cons]
      cases lineOf e.2 with
      | none => exact hrest
      | some line =>
        simp only [List.filter_cons, hrest]
    · rw [List.filter_cons_of_neg (by simpa using htid), List.filterMap_cons]
      cases hline : lineOf e.2 with
      | none => exact hrest
      | some line =>
        have hne : ¬ line.requestId = id := fun heq => htid (hhead line hline heq)
        simp only [List.filter_cons, hne, decide_false, Bool.false_eq_true, if_false, hrest]

end Service

namespace HdfsGateway

variable {self : HdfsGateway} {H : Type} {hdfs : Hdfs H} {now : ℕ} {start : H}
  {s : Pool OpCmd OpCmd.Resp (Service self.crates H) Operation Reply} {tid tid' : ℕ}

/-- In every state the counter counts. -/
theorem Serves.counted (hs : self.Serves hdfs now start s) : s.world.Counted := by
  induction hs with
  | init => exact ⟨rfl, rfl⟩
  | step _ hstep ih =>
    cases hstep with
    | start => exact ih
    | exec htask hexec => exact ih.exec hexec
    | outside tasks hout =>
      obtain ⟨v, -, rfl⟩ := hout
      exact ih.congr rfl rfl

/-- Some response to each command. -/
def anything : (c : OpCmd) → c.Resp
  | .gateway (.cacheGet _ _) => none
  | .gateway (.cacheInsert _ _ _ _) | .gateway (.cacheRemove _ _) => ()
  | .gateway (.upstream (.getFileInfo _)) => Except.error .noSASLMechanism
  | .gateway (.upstream (.read _ _)) => Except.error .noSASLMechanism
  | .gateway (.upstream (.listStatus _)) => Except.error .noSASLMechanism
  | .gateway (.upstream (.pollRange _ _ _ _)) => none
  | .systemTime => (0 : ℕ)
  | .fetchAdd => (0 : UInt64)
  | .info _ => ()

/-- The commands that an operation executed. -/
def ownOps (hdfs : Hdfs H) (tid : ℕ) (v : Service self.crates H) : List (Sigma OpCmd.Resp) :=
  (Service.recording self.crates hdfs).own tid v

/-- What an operation did so far: it drew at most one number, and if it logged anything, it logged it
under an id with this number. -/
theorem ownOps_spec (hs : self.Serves hdfs now start s) (tid : ℕ) :
    (drawsOf (ownOps hdfs tid s.world)).length ≤ 1 ∧
      ∀ line ∈ linesOf (ownOps hdfs tid s.world), ∃ nanos, ∃ seq ∈ drawsOf (ownOps hdfs tid s.world),
        line.requestId = requestIdOf nanos seq := by
  obtain ⟨hidle, htasks⟩ := hs.transcript (Service.recording self.crates hdfs) rfl
  cases ht : s.tasks[tid]? with
  | none =>
    have hnil : ownOps hdfs tid s.world = [] := hidle tid (List.getElem?_eq_none_iff.mp ht)
    rw [hnil]
    exact ⟨Nat.zero_le 1, by simp [linesOf]⟩
  | some t =>
    -- what is left of the operation may go on in any way
    have hruns : (self.operate t.request).Runs (ownOps hdfs tid s.world ++ _) _ :=
      htasks tid t ht _ _ (Prog.runs_eval anything t.rest)
    obtain ⟨nanos, seq, tail, hlog, hdraws, hlines, -⟩ := operate_logs hruns
    rcases hown : ownOps hdfs tid s.world with _ | ⟨first, _ | ⟨second, more⟩⟩
    · exact ⟨Nat.zero_le 1, by simp [linesOf]⟩
    · rw [hown] at hlog
      obtain ⟨rfl, -⟩ := List.cons.inj hlog
      exact ⟨Nat.zero_le 1, by simp [linesOf, lineOf]⟩
    · rw [hown] at hlog
      obtain ⟨rfl, hrest⟩ := List.cons.inj hlog
      obtain ⟨rfl, hmore⟩ := List.cons.inj hrest
      have hmoredraws : drawsOf more = [] := by
        have hall : drawsOf (more ++ _) = [] := (congrArg drawsOf hmore).trans hdraws
        rw [drawsOf, List.filterMap_append] at hall
        exact (List.append_eq_nil_iff.mp hall).1
      have hmorelines : linesOf (more ++ _) = .started (requestIdOf nanos seq) t.request.name ::
          linesOf tail := congrArg linesOf hmore
      refine ⟨(congrArg List.length (congrArg (List.cons seq) hmoredraws)).le, fun line hline => ?_⟩
      refine ⟨nanos, seq, List.mem_cons_self, ?_⟩
      have hmem : line ∈ .started (requestIdOf nanos seq) t.request.name :: linesOf tail := by
        rw [← hmorelines, linesOf, List.filterMap_append]
        exact List.mem_append_left _ hline
      rcases List.mem_cons.mp hmem with rfl | hmem
      · rfl
      · exact hlines line hmem

/-- No more numbers were drawn than requests arrived. -/
theorem draws_le (hs : self.Serves hdfs now start s) : s.world.draws.length ≤ s.tasks.length := by
  have hone : (s.world.draws.map Prod.fst).Nodup := by
    refine List.nodup_iff_count_le_one.mpr fun tid => ?_
    exact Service.count_draws.trans_le (ownOps_spec hs tid).1
  have harrived : s.world.draws.map Prod.fst ⊆ List.range s.tasks.length := by
    intro tid htid
    obtain ⟨⟨tid, seq⟩, hmem, rfl⟩ := List.mem_map.mp htid
    have hown : seq ∈ drawsOf (ownOps hdfs tid s.world) := Service.mem_draws.mp hmem
    by_contra hnot
    have hnone : ownOps hdfs tid s.world = [] :=
      (hs.transcript (Service.recording self.crates hdfs) rfl).1 tid
        (not_lt.mp fun hlt => hnot (List.mem_range.mpr hlt))
    rw [hnone] at hown
    exact List.not_mem_nil hown
  have hle := (hone.subperm harrived).length_le
  rwa [List.length_map, List.length_range] at hle

/-- No two requests log under one id, until the counter wraps. -/
theorem line_unique (hs : self.Serves hdfs now start s) (hcount : s.tasks.length ≤ 2 ^ 64)
    {nanos : ℕ} {seq : UInt64} (hdraw : seq ∈ drawsOf (ownOps hdfs tid s.world)) {line : LogLine}
    (hline : line ∈ linesOf (ownOps hdfs tid' s.world)) (hid : line.requestId = requestIdOf nanos seq) :
    tid' = tid := by
  obtain ⟨nanos', seq', hdraw', hid'⟩ := (ownOps_spec hs tid').2 line hline
  obtain rfl : seq' = seq := requestIdOf_inj (hid'.symm.trans hid)
  exact hs.counted.unique ((draws_le hs).trans hcount) (Service.mem_draws.mpr hdraw')
    (Service.mem_draws.mpr hdraw)

/-- What an answered request did. -/
theorem answered_logs (hs : self.Serves hdfs now start s) {op : Operation}
    {result : Except ErrorResponse (S3Response OpOutput)} {body : Option Body}
    (hfin : s.Finished tid op (.answered result body)) :
    ∃ nanos, ∃ seq ∈ drawsOf (ownOps hdfs tid s.world), Carries (requestIdOf nanos seq) result ∧
      linesOf (ownOps hdfs tid s.world) = self.loggedLines (requestIdOf nanos seq) op result := by
  obtain ⟨nanos, seq, rest, hlog, -, -, hanswered⟩ :=
    operate_logs (hs.runs_own (Service.recording self.crates hdfs) rfl hfin)
  obtain ⟨hlines, hcarries⟩ := hanswered result body rfl
  refine ⟨nanos, seq, ?_, hcarries, ?_⟩
  · rw [ownOps, hlog]
    exact List.mem_cons_self
  · rw [ownOps, hlog]
    exact congrArg (List.cons _) hlines

/-- The header of an answer names its request. -/
theorem carries_inj {id id' : String} {result : Except ErrorResponse (S3Response OpOutput)}
    (h : Carries id result) (h' : Carries id' result) : id = id' := by
  cases result with
  | ok resp => exact Option.some.inj (h.symm.trans h')
  | error err => exact Option.some.inj (h.1.symm.trans h'.1)

/-- An answered request is in the log twice, under its id. In every state that any interleaving of
operations reaches, so long as no more than `2 ^ 64` requests arrived, the reply to a request carries an
id under which the log has exactly two lines: that this operation started, and that it completed, with
its path, the bytes it serves and whether it succeeded. No other reply carries this id. -/
theorem logged_under_one_id (hs : self.Serves hdfs now start s) (hcount : s.tasks.length ≤ 2 ^ 64)
    {op : Operation} {result : Except ErrorResponse (S3Response OpOutput)} {body : Option Body}
    (hfin : s.Finished tid op (.answered result body)) :
    ∃ id, Carries id result ∧
      s.world.lines.filter (fun line => line.requestId = id) = self.loggedLines id op result ∧
      ∀ tid' op' result' body', s.Finished tid' op' (.answered result' body') → Carries id result' →
        tid' = tid := by
  obtain ⟨nanos, seq, hdraw, hcarries, hlines⟩ := answered_logs hs hfin
  refine ⟨requestIdOf nanos seq, hcarries, ?_, ?_⟩
  · -- every line under the id is a line of this request
    have howner : ∀ e ∈ s.world.executed, ∀ line, lineOf e.2 = some line →
        line.requestId = requestIdOf nanos seq → e.1 = tid := by
      intro e he line hline hid
      have hown : e.2 ∈ ownOps hdfs e.1 s.world :=
        List.mem_map_of_mem (List.mem_filter.mpr ⟨he, decide_eq_true rfl⟩)
      exact line_unique hs hcount hdraw (List.mem_filterMap.mpr ⟨e.2, hown, hline⟩) hid
    have hfilter : s.world.lines.filter (fun line => line.requestId = requestIdOf nanos seq) =
        (linesOf (ownOps hdfs tid s.world)).filter fun line => line.requestId = requestIdOf nanos seq :=
      Service.filter_lines howner
    rw [hfilter, hlines, loggedLines]
    simp [LogLine.requestId]
  · intro tid' op' result' body' hfin' hcarries'
    obtain ⟨nanos', seq', hdraw', hcarries'', hlines'⟩ := answered_logs hs hfin'
    have hid : requestIdOf nanos' seq' = requestIdOf nanos seq := carries_inj hcarries'' hcarries'
    have hmem : LogLine.started (requestIdOf nanos' seq') op'.name ∈
        linesOf (ownOps hdfs tid' s.world) := hlines' ▸ List.mem_cons_self
    exact line_unique hs hcount hdraw hmem hid

/-- Two requests arrive within a microsecond, and the second draws its number first: the write is denied
under a number of its own. -/
theorem logged_under_one_id_sample :
    let hdfs : Hdfs Unit := ⟨fun _ _ _ => True, fun _ _ => True⟩
    ∃ s : Pool OpCmd OpCmd.Resp (Service reference.crates Unit) Operation Reply,
      reference.Serves hdfs 0 () s ∧ ∃ err, s.Finished 0 (.write .putObject) (.answered (.error err) none) ∧
      ∃ id, Carries id (.error err) ∧ s.world.lines.filter (fun line => line.requestId = id) =
        reference.loggedLines id (.write .putObject) (.error err) := by
  intro hdfs
  have h0 : reference.Serves hdfs 0 () _ := .init
  have h1 := h0.step (.start _ _ (.write .putObject))
  have h2 := h1.step (.start _ _ (.probe .getBucketAcl))
  have h3 := h2.step (.exec (show ([_, _] : List _)[0]? = _ from rfl) (.systemTime 5000))
  have h4 := h3.step (.exec (show ([_, _] : List _)[1]? = _ from rfl) (.systemTime 5900))
  have h5 := h4.step (.exec (show ([_, _] : List _)[1]? = _ from rfl) .fetchAdd)
  have h6 := h5.step (.exec (show ([_, _] : List _)[0]? = _ from rfl) .fetchAdd)
  have h7 := h6.step (.exec (show ([_, _] : List _)[0]? = _ from rfl) (.info _))
  have h8 := h7.step (.exec (show ([_, _] : List _)[0]? = _ from rfl) (.info _))
  obtain ⟨s, hs, hcount, hdenied⟩ : ∃ s, reference.Serves hdfs 0 () s ∧ s.tasks.length ≤ 2 ^ 64 ∧
      s.Finished 0 (.write .putObject) (.answered (.error
        (RequestLog.attach { op := "PutObject", requestId := requestIdOf 5000 1 } writeDenied)) none) :=
    ⟨_, h8, by decide, rfl⟩
  obtain ⟨id, hcarries, hlines, -⟩ := logged_under_one_id hs hcount hdenied
  exact ⟨s, hs, _, hdenied, id, hcarries, hlines⟩

end HdfsGateway

end HdfsS3Gateway
