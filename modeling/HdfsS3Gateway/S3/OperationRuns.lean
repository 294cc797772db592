import HdfsS3Gateway.Library.WeakSimulation
import HdfsS3Gateway.S3.OwnCommands
import HdfsS3Gateway.S3.RequestIds

/-!
# Runs of the service

The log and the ids of the requests change nothing about how the gateway serves them. A run of the
service, with all its operations, is a run of the gateway: the same worlds, and every read in it under
its own number, with the response that its client gets. The other operations are answered without a
single command of the gateway: they neither read nor change the caches, and call nothing.
-/

namespace HdfsS3Gateway

open Interaction

/-! ## Replies -/

/-- What a client gets for a result, under the id of its request. -/
def Reply.of (id : String) (result : Except S3Error OpOutput) (body : Option Body) : Reply :=
  match result with
  | .ok output => .answered (.ok (withRequestId { output } { op := "", requestId := id }).1) body
  | .error err => .answered (.error (attachErrorRequestId id { error := err })) body

/-- What the client of a read gets when its program returns this response. -/
def Response.toReply (id : String) : Response → Reply
  | .headObject result => .of id (result.map .headObject) none
  | .getObject (.error err) => .of id (.error err) none
  | .getObject (.ok (object, body)) => .of id (.ok (.getObject object)) (some body)
  | .listObjectsV2 (.error (.response err)) => .of id (.error err) none
  | .listObjectsV2 (.error .outOfFuel) => .outOfFuel
  | .listObjectsV2 (.ok output) => .of id (.ok (.listObjectsV2 output)) none

namespace HdfsGateway

/-- What the client of an operation gets: that of a read what the program of the gateway returns, any
other a reply of its own. -/
def Replies (self : HdfsGateway) (id : String) : Operation → Reply → Response → Prop
  | .read _, reply, res => reply = res.toReply id
  | .write _, reply, _ => reply = .of id (.error writeDenied) none
  | .probe op, reply, _ => reply = .of id (.ok (.notConfigured op)) none
  | .listBuckets, reply, _ =>
    ∃ creationDate, reply = .of id (.ok (.listBuckets self.mapper.bucket creationDate)) none
  | .headBucket bucket, reply, _ => reply =
    .of id (if bucket = self.mapper.bucket then .ok .headBucket else .error { code := .noSuchBucket }) none

end HdfsGateway

/-! ## The commands of the gateway -/

/-- A command of the gateway in an operation. -/
def seenCommand : Sigma OpCmd.Resp → Option (Sigma Cmd.Resp)
  | ⟨.gateway c, r⟩ => some ⟨c, r⟩
  | _ => none

/-- The service, seen as the gateway in it. -/
def gatewayView {H : Type} (crates : Crates) (hdfs : Hdfs H) :
    View (serviceMachine crates hdfs) (gatewayMachine crates hdfs) where
  world := Service.world
  seen := seenCommand
  silent h hseen := by
    cases h with
    | gateway => contradiction
    | systemTime | fetchAdd | info => rfl
  shown h hseen := by
    cases h with
    | gateway h =>
      obtain rfl := Option.some.inj hseen
      exact h
    | systemTime | fetchAdd | info => contradiction
  outside h := by
    obtain ⟨v, hout, rfl⟩ := h
    exact hout

section Follows

variable {crates : Crates} {H : Type} {hdfs : Hdfs H} {α β : Type} {Q : α → β → Prop}

/-- What the gateway does in an operation is seen as it is. -/
theorem follows_inner (p : Req α) : (gatewayView crates hdfs).Follows (· = ·) (inner p) p := by
  induction p with
  | ret a => exact View.follows_ret _ rfl
  | call c k ih => exact fun r => .inr ⟨c, r, k, rfl, rfl, ih r⟩

/-- Minting an id and logging it are not seen. -/
theorem follows_new {op : String} {f : RequestLog → Op α} {q : Req β}
    (h : ∀ nanos seq, (gatewayView crates hdfs).Follows Q
      (f { op, requestId := requestIdOf nanos seq }) q) :
    (gatewayView crates hdfs).Follows Q (RequestLog.new op >>= f) q := by
  refine View.follows_silent _ (fun _ => rfl) fun nanos => ?_
  refine View.follows_silent _ (fun _ => rfl) fun seq => ?_
  exact View.follows_silent _ (fun _ => rfl) fun _ => h nanos seq

/-- Neither is the end of the log of a request. -/
theorem follows_fail {log : RequestLog} {err : S3Error} {b : β} {Q : Reply → β → Prop}
    (h : Q (.of log.requestId (.error err) none) b) :
    (gatewayView crates hdfs).Follows Q (log.fail err) (.ret b) :=
  View.follows_silent _ (fun _ => rfl) fun _ => View.follows_ret _ h

theorem follows_succeed {log : RequestLog} {output : OpOutput} {f : S3Response OpOutput → Op α}
    {q : Req β} (h : (gatewayView crates hdfs).Follows Q (f (withRequestId { output } log).1) q) :
    (gatewayView crates hdfs).Follows Q (log.succeed output >>= f) q :=
  View.follows_silent _ (fun _ => rfl) fun _ => h

end Follows

namespace HdfsGateway

variable {self : HdfsGateway} {H : Type} {hdfs : Hdfs H}

/-- A request for another bucket. -/
def strangerInput (self : HdfsGateway) : HeadObjectInput :=
  { bucket := self.mapper.bucket ++ [0], key := [] }

/-- It is refused at once. -/
theorem serve_stranger : self.serve (.headObject self.strangerInput) =
    .ret (.headObject (.error { code := .noSuchBucket })) := by
  have hne : self.strangerInput.bucket ≠ self.mapper.bucket := by simp [strangerInput]
  have hresolve : self.resolvePath self.strangerInput.bucket self.strangerInput.key =
      .error { code := .noSuchBucket } := if_pos hne
  rw [serve, headObject, hresolve]
  rfl

/-- The request that an operation is seen as; one that is not a read does nothing, as that for another
bucket. -/
def asked (self : HdfsGateway) : Operation → S3Request
  | .read req => req
  | _ => .headObject self.strangerInput

theorem serve_asked {op : Operation} (hop : ∀ req, op ≠ .read req) :
    self.serve (self.asked op) = .ret (.headObject (.error { code := .noSuchBucket })) := by
  cases op with
  | read req => exact absurd rfl (hop req)
  | headBucket | listBuckets | write | probe => exact serve_stranger

/-- Every operation does what the request does that it is seen as. -/
theorem operate_follows (op : Operation) : (gatewayView self.crates hdfs).Follows
    (fun reply res => ∃ nanos seq, self.Replies (requestIdOf nanos seq) op reply res)
    (self.operate op) (self.serve (self.asked op)) := by
  cases op with
  | headBucket bucket =>
    rw [serve_asked (by simp)]
    refine follows_new fun nanos seq => ?_
    split
    · rename_i hne
      exact follows_fail ⟨nanos, seq, by rw [Replies, if_neg hne]⟩
    · rename_i heq
      exact follows_succeed (View.follows_ret _ ⟨nanos, seq, by
        rw [Replies, if_pos (not_not.mp heq)]
        rfl⟩)
  | listBuckets =>
    rw [serve_asked (by simp)]
    refine follows_new fun nanos seq => ?_
    refine View.follows_silent _ (fun _ => rfl) fun now => ?_
    exact follows_succeed (View.follows_ret _ ⟨nanos, seq, _, rfl⟩)
  | write op =>
    have hdeny : write op = denyWrite op.name := by cases op <;> rfl
    rw [serve_asked (by simp), operate, hdeny]
    exact follows_new fun nanos seq => follows_fail ⟨nanos, seq, rfl⟩
  | probe op =>
    have hprobe : probe op = answerProbe op.name op := by cases op <;> rfl
    rw [serve_asked (by simp), operate, hprobe]
    exact follows_new fun nanos seq => follows_succeed (View.follows_ret _ ⟨nanos, seq, rfl⟩)
  | read req =>
    rw [asked]
    cases req with
    | headObject input =>
      refine follows_new fun nanos seq => ?_
      apply View.follows_bind _ (follows_inner _)
      rintro result _ rfl
      rw [logPath_eq]
      cases result with
      | error err => exact follows_fail ⟨nanos, seq, rfl⟩
      | ok output => exact follows_succeed (View.follows_ret _ ⟨nanos, seq, rfl⟩)
    | getObject input polls =>
      refine follows_new fun nanos seq => ?_
      rw [serve, serveGet, map_eq_pure_bind, bind_assoc]
      apply View.follows_bind _ (follows_inner _)
      rintro result _ rfl
      rw [logPath_eq]
      cases result with
      | error err => exact follows_fail ⟨nanos, seq, rfl⟩
      | ok found =>
        obtain ⟨hdfsPath, object⟩ := found
        dsimp only
        rw [bind_assoc]
        refine follows_succeed (View.follows_bind _ (follows_inner _) ?_)
        rintro body _ rfl
        exact View.follows_ret _ ⟨nanos, seq, rfl⟩
    | listObjectsV2 input fuel =>
      refine follows_new fun nanos seq => ?_
      apply View.follows_bind _ (follows_inner _)
      rintro result _ rfl
      cases result with
      | ok output => exact follows_succeed (View.follows_ret _ ⟨nanos, seq, rfl⟩)
      | error failed =>
        cases failed with
        | response err => exact follows_fail ⟨nanos, seq, rfl⟩
        | outOfFuel => exact View.follows_ret _ ⟨nanos, seq, rfl⟩

/-- What such an operation is seen as executes nothing. -/
theorem ownCommands_asked {now : ℕ} {start : H}
    {t : Pool Cmd Cmd.Resp (World self.crates H) S3Request Response} {tid : ℕ} {op : Operation}
    (ht : self.Reachable hdfs now start t) {task : Task Cmd Cmd.Resp S3Request Response}
    (htask : t.tasks[tid]? = some task) (hasked : task.request = self.asked op)
    (hop : ∀ req, op ≠ .read req) : ownCommands tid t.world.log = [] := by
  obtain ⟨rest, res, -, hruns⟩ := exists_completion ht htask fun c => anything (.gateway c)
  rw [hasked, serve_asked hop] at hruns
  exact (List.append_eq_nil_iff.mp (Prog.runs_ret.mp hruns).1).1

/-- The service runs the gateway. Every state that any interleaving of operations reaches has the world
of a state that an interleaving of the reads alone can reach. In that state every read that is answered
has the response that its client gets; every write-shaped operation is denied, and every other one gets
a reply that depends on the name of the bucket alone, all under a request id. Every command that was
executed is one of a read. -/
theorem serves_as_gateway {now : ℕ} {start : H}
    {s : Pool OpCmd OpCmd.Resp (Service self.crates H) Operation Reply}
    (hs : self.Serves hdfs now start s) :
    ∃ t, self.Reachable hdfs now start t ∧ t.world = s.world.world ∧
      (∀ tid op reply, s.Finished tid op reply → ∃ nanos seq res,
        self.Replies (requestIdOf nanos seq) op reply res ∧
        ∀ req, op = .read req → t.Finished tid req res) ∧
      ∀ e ∈ s.world.world.log, ∃ task, s.tasks[e.tid]? = some task ∧ ∃ req, task.request = .read req := by
  obtain ⟨t, ht, hworld, htasks⟩ :=
    (gatewayView self.crates hdfs).reachable (fun op => operate_follows op) hs
  refine ⟨t, ht, hworld, fun tid op reply hfin => ?_, fun e he => ?_⟩
  · obtain ⟨res, hfin', nanos, seq, hreplies⟩ := View.finished _ htasks hfin
    refine ⟨nanos, seq, res, hreplies, ?_⟩
    rintro req rfl
    exact hfin'
  · have hown : ownCommands e.tid t.world.log ≠ [] := by
      rw [hworld]
      exact List.ne_nil_of_mem (mem_ownCommands.mpr ⟨e, he, rfl, rfl⟩)
    cases htask : s.tasks[e.tid]? with
    | none =>
      rw [List.getElem?_eq_none_iff, htasks.length_eq, ← List.getElem?_eq_none_iff] at htask
      exact absurd (ownCommands_eq_nil ht htask) hown
    | some task =>
      obtain ⟨task', htask', hasked, -⟩ := forall₂_getElem? htasks htask
      refine ⟨task, rfl, ?_⟩
      by_contra hnot
      exact hown (ownCommands_asked ht htask' hasked fun req heq => hnot ⟨req, heq⟩)

/-- A write and the HEAD of a file that HDFS does not find, one in the middle of the other. -/
theorem serves_as_gateway_sample :
    let n : StaticHdfs := ⟨fun _ => .error (.fileNotFound ""), fun path => .ok ⟨path, 3, 0⟩,
      fun _ => .ok [], fun _ _ _ _ => none⟩
    let req : S3Request := .headObject { bucket := [0x62], key := [0x66] }
    ∃ s : Pool OpCmd OpCmd.Resp (Service reference.withoutCache.crates Unit) Operation Reply,
      reference.withoutCache.Serves n.hdfs 0 () s ∧ s.world.world.log.length = 4 ∧
      ∃ t, reference.withoutCache.Reachable n.hdfs 0 () t ∧ t.world = s.world.world ∧
        ∃ nanos seq res, t.Finished 0 req res ∧
          s.Finished 0 (.read req) (res.toReply (requestIdOf nanos seq)) := by
  intro n req
  have h0 : reference.withoutCache.Serves n.hdfs 0 () _ := .init
  have h1 := h0.step (.start _ _ (.read req))
  have h2 := h1.step (.start _ _ (.write .deleteObject))
  have h3 := h2.step (.exec (show ([_, _] : List _)[0]? = _ from rfl) (.systemTime 0))
  have h4 := h3.step (.exec (show ([_, _] : List _)[0]? = _ from rfl) .fetchAdd)
  have h5 := h4.step (.exec (show ([_, _] : List _)[0]? = _ from rfl) (.info _))
  have h6 := h5.step (.exec (show ([_, _] : List _)[0]? = _ from rfl) (.gateway ⟨rfl, rfl⟩))
  have h7 := h6.step (.exec (show ([_, _] : List _)[1]? = _ from rfl) (.systemTime 0))
  have h8 := h7.step (.exec (show ([_, _] : List _)[0]? = _ from rfl) (.gateway ⟨rfl, rfl⟩))
  have h9 := h8.step (.exec (show ([_, _] : List _)[0]? = _ from rfl) (.gateway ⟨rfl, rfl⟩))
  have h10 := h9.step (.exec (show ([_, _] : List _)[0]? = _ from rfl)
    (.gateway (c := .cacheInsert .negative _ () 1) (r := ()) ⟨trivial, rfl⟩))
  have h11 := h10.step (.exec (show ([_, _] : List _)[0]? = _ from rfl) (.info _))
  obtain ⟨s, hs, hlog, reply, hfin⟩ : ∃ s, reference.withoutCache.Serves n.hdfs 0 () s ∧
      s.world.world.log.length = 4 ∧ ∃ reply, s.Finished 0 (.read req) reply := ⟨_, h11, rfl, _, rfl⟩
  obtain ⟨t, ht, hworld, hanswers, -⟩ := serves_as_gateway hs
  obtain ⟨nanos, seq, res, rfl, hread⟩ := hanswers 0 _ _ hfin
  exact ⟨s, hs, hlog, t, ht, hworld, nanos, seq, res, hread req rfl, hfin⟩

end HdfsGateway

end HdfsS3Gateway
