import HdfsS3Gateway.S3.StoredTree

/-!
# The gateway refines an object store

Over an unchanging, readable tree the gateway shows the object store of the files of this tree, whatever
is cached and whatever runs beside a request. So what a listing shows is what HEAD and GET serve.
-/

namespace HdfsS3Gateway

open Interaction

namespace StoredTree

variable {w : StoredTree}

/-! ## Listings -/

/-- A page for no keys is empty, whatever is listed for it. -/
theorem eval_listPage_zero {args : ListArgs} (hmax : args.maxKeys = 0) (fuel : ℕ) :
    (w.gateway.listPage fuel args).eval w.hdfs.missing = .ok Page.empty := by
  unfold HdfsGateway.listPage
  split_ifs with hslash hsome
  · unfold HdfsGateway.pageSlash HdfsGateway.listStartDir
    have hpage : ∀ files dirs, paginateSlash files dirs args.pre args.startAfter args.maxKeys =
        Page.empty := fun files dirs => if_pos hmax
    rw [Prog.eval_bind]
    cases hstart : w.gateway.mapper.listStart args.pre with
    | none => exact congrArg Except.ok (hpage _ _)
    | some path =>
      obtain ⟨start, hplain, rfl, -⟩ := w.gateway.mapper.listStart_eq_some hstart
      simp only [ReadableTree.eval_listDir]
      by_cases hdir : w.tree.IsDir start
      · obtain ⟨statuses, hlist, -⟩ := w.lists.listed start hdir rfl
        rw [hlist]
        exact congrArg Except.ok (hpage _ _)
      · by_cases hfile : ∃ x ∈ w.tree.nodes, x.segs = start
        · obtain ⟨x, hx, rfl⟩ := hfile
          have hxfile : x.isdir = false :=
            Bool.eq_false_iff.mpr fun hxdir => hdir (.inr ⟨x, hx, rfl, hxdir⟩)
          rw [w.lists.file x hx hxfile]
          exact congrArg Except.ok (hpage _ _)
        · have htop : start ≠ [] := fun h => hdir (.inl h)
          obtain ⟨path, hpath⟩ := w.lists.missing start hplain htop
            fun x hx hsegs => hfile ⟨x, hx, hsegs⟩
          rw [hpath]
          exact congrArg Except.ok (hpage _ _)
  · unfold HdfsGateway.pageDelimiter HdfsGateway.collectAll
    rw [Prog.eval_bind, if_pos hmax]
    exact congrArg Except.ok (if_pos hmax)
  · unfold HdfsGateway.pageFlat HdfsGateway.collectFlat
    rw [Prog.eval_bind, hmax]
    cases w.gateway.mapper.listStart args.pre <;> rfl

/-- A listing is answered as the store answers it. -/
theorem list_answer {input : ListObjectsV2Input} {fuel : ℕ} (hfuel : w.tree.nodes.length < fuel)
    {args : ListArgs} (hargs : w.gateway.listArgs input = .ok args) :
    w.store.ListAnswer args ((w.gateway.listObjectsV2 fuel input).eval w.hdfs.missing) := by
  obtain ⟨outputs, hout⟩ := w.exists_outputs args.pre args.delimiter
  unfold HdfsGateway.listObjectsV2
  rw [hargs]
  simp only [Prog.eval_bind]
  by_cases hmax : args.maxKeys = 0
  · rw [eval_listPage_zero hmax]
    refine ⟨outputs, _, hout.ascending, hout.mem_iff, rfl, ?_, ?_⟩
    · simp [hmax, ListObjectsV2Output.items, HdfsGateway.listOutput, Page.empty]
    · simp [hmax, HdfsGateway.listOutput, Page.empty]
  · rw [ReadableTree.eval_listPage hout hmax hfuel]
    refine ⟨outputs, _, hout.ascending, hout.mem_iff, rfl,
      items_listOutput (retain_sorted args.startAfter hout.ascending) w.gateway input args _, ?_⟩
    by_cases hmore : args.maxKeys < (retain Output.key args.startAfter outputs).length
    · obtain ⟨n, hn⟩ := Nat.exists_eq_succ_of_ne_zero hmax
      obtain ⟨htrunc, -⟩ := ReadableTree.listOutput_more w.gateway input args hn (hn ▸ hmore)
      exact ⟨fun _ => ⟨hmax, hmore⟩, fun _ => htrunc⟩
    · obtain ⟨hlast, -⟩ := ReadableTree.listOutput_last w.gateway input args (Nat.le_of_not_lt hmore)
      exact ⟨fun h => by rw [hlast] at h; contradiction, fun h => absurd h.2 hmore⟩

/-! ## Refinement -/

/-- The gateway refines the object store of its files. Over an unchanging, readable tree, in every run,
whatever is cached and whatever runs beside a request, each response is one that the store gives. -/
theorem refines_store (w : StoredTree) {now : ℕ}
    {s : Pool Cmd Cmd.Resp (World w.gateway.crates Unit) S3Request Response}
    (hs : w.gateway.Reachable w.hdfs.hdfs now () s) {tid : ℕ} {req : S3Request} {res : Response}
    (hfin : s.Finished tid req res)
    (hfuel : ∀ input fuel, req = .listObjectsV2 input fuel → w.tree.nodes.length < fuel) :
    w.store.Answers w.gateway req res := by
  rw [HdfsGateway.finished_eq_uncached hs hfin, HdfsGateway.uncached]
  cases req with
  | headObject input =>
    rw [HdfsGateway.serve, Prog.eval_map]
    exact head_answer input
  | getObject input polls =>
    rw [HdfsGateway.serve, Prog.eval_map]
    exact get_answer input polls
  | listObjectsV2 input fuel =>
    have hanswer : w.store.ListInputAnswer w.gateway input
        ((w.gateway.listObjectsV2 fuel input).eval w.hdfs.missing) := by
      unfold ObjectStore.ListInputAnswer
      cases hargs : w.gateway.listArgs input with
      | error e =>
        rw [HdfsGateway.listObjectsV2, hargs]
        rfl
      | ok args => exact list_answer (hfuel input fuel rfl) hargs
    rw [HdfsGateway.serve, Prog.eval_map]
    exact hanswer

section Agreement

variable {w : StoredTree} {now : ℕ}
  {s : Pool Cmd Cmd.Resp (World w.gateway.crates Unit) S3Request Response} {tid fuel : ℕ}
  {input : ListObjectsV2Input} {out : ListObjectsV2Output}

/-- The arguments of a listing that succeeded, and its answer. -/
theorem answer_of_listed (hs : w.gateway.Reachable w.hdfs.hdfs now () s)
    (hfuel : w.tree.nodes.length < fuel)
    (hlist : s.Finished tid (.listObjectsV2 input fuel) (.listObjectsV2 (.ok out))) :
    ∃ args, w.gateway.listArgs input = .ok args ∧ w.store.ListAnswer args (.ok out) := by
  have hanswer : w.store.ListInputAnswer w.gateway input (.ok out) :=
    refines_store w hs hlist fun _ _ heq => (S3Request.listObjectsV2.inj heq).2 ▸ hfuel
  unfold ObjectStore.ListInputAnswer at hanswer
  cases hargs : w.gateway.listArgs input with
  | error e =>
    rw [hargs] at hanswer
    contradiction
  | ok args =>
    rw [hargs] at hanswer
    exact ⟨args, rfl, hanswer⟩

/-- What a listing shows is what HEAD and GET serve. Over an unchanging, readable tree, in every run, a
listed object is found by a HEAD and by a GET of its key, with the size, the entity tag and the date
that the listing showed, and the body ends after exactly this size. And a canonical key that a HEAD
finds is in every flat listing that should hold it, with the same entity tag. -/
theorem lists_what_it_serves (hs : w.gateway.Reachable w.hdfs.hdfs now () s)
    (hfuel : w.tree.nodes.length < fuel)
    (hlist : s.Finished tid (.listObjectsV2 input fuel) (.listObjectsV2 (.ok out))) :
    (∀ obj, .inl obj ∈ out.items →
      (∀ tid' r, s.Finished tid' (.headObject ⟨w.gateway.mapper.bucket, obj.key, {}⟩)
          (.headObject r) → ∃ head, r = .ok head ∧ head.contentLength = obj.size ∧
            head.eTag = obj.eTag ∧ head.lastModified = obj.lastModified) ∧
      ∀ tid' polls r, s.Finished tid' (.getObject ⟨w.gateway.mapper.bucket, obj.key, {}, none⟩ polls)
          (.getObject r) → ∃ object body, r = .ok (object, body) ∧
            object.output.contentLength = obj.size ∧ object.output.eTag = obj.eTag ∧
            object.output.lastModified = obj.lastModified ∧ BytesStream.NoError body.items ∧
            (body.ended = true → (UInt64.ofNat
              (BytesStream.bytesBeforeError body.items).length).toInt64 = obj.size)) ∧
    ∀ args, w.gateway.listArgs input = .ok args → args.delimiter = none → args.maxKeys ≠ 0 →
      out.isTruncated = false → w.gateway.mapper.listStart args.pre ≠ none →
      ∀ key, CanonicalKey key → args.pre <+: key → (∀ m, args.startAfter = some m → m < key) →
        ∀ tid' head, s.Finished tid' (.headObject ⟨w.gateway.mapper.bucket, key, {}⟩)
          (.headObject (.ok head)) →
          ∃ obj, .inl obj ∈ out.items ∧ obj.key = key ∧ obj.eTag = head.eTag := by
  obtain ⟨args, hargs, hanswer⟩ := answer_of_listed hs hfuel hlist
  refine ⟨fun obj hobj => ?_, fun args' hargs' hdelim hmax hall hlistable key hkey hpre hafter => ?_⟩
  · obtain ⟨o, hfind, hsize, heTag, hmodified⟩ := hanswer.found hobj
    have hselect : w.store.select w.gateway.mapper.bucket obj.key {} = .ok o :=
      ObjectStore.select_of_find hfind
    constructor
    · intro tid' r hhead
      have hserved : w.store.HeadAnswer ⟨w.gateway.mapper.bucket, obj.key, {}⟩ r :=
        refines_store w hs hhead (by simp)
      rw [ObjectStore.HeadAnswer, hselect] at hserved
      obtain ⟨head, rfl, hlen, hetag, hdate⟩ := hserved
      exact ⟨head, rfl, hlen.trans hsize.symm, hetag.trans heTag.symm, hdate.trans hmodified.symm⟩
    · intro tid' polls r hget
      have hserved : w.store.GetAnswer ⟨w.gateway.mapper.bucket, obj.key, {}, none⟩ r :=
        refines_store w hs hget (by simp)
      rw [ObjectStore.GetAnswer, hselect] at hserved
      rcases hserved with ⟨-, hnone⟩ | ⟨bytes, object, body, rfl, rfl, hlen, hetag, hdate, hok, -, hend⟩
      · exact absurd rfl (hnone o.content)
      · have hwhole : (UInt64.ofNat o.content.length).toInt64 = obj.size := by
          rw [hsize, o.whole, UInt64.ofNat_toNat]
        exact ⟨object, body, rfl, hlen.trans hwhole, hetag.trans heTag.symm,
          hdate.trans hmodified.symm, hok, fun hended => by rw [hend hended, hwhole]⟩
  · intro tid' head hhead
    obtain rfl := Except.ok.inj (hargs.symm.trans hargs')
    have hserved : w.store.HeadAnswer ⟨w.gateway.mapper.bucket, key, {}⟩ (.ok head) :=
      refines_store w hs hhead (by simp)
    cases hfind : w.store.find key with
    | none =>
      have hselect : w.store.select w.gateway.mapper.bucket key {} =
          .error { code := .noSuchKey } := by
        rw [ObjectStore.select, hfind]
        exact if_neg (not_not_intro rfl)
      rw [ObjectStore.HeadAnswer, hselect] at hserved
      contradiction
    | some o =>
      have hselect : w.store.select w.gateway.mapper.bucket key {} = .ok o :=
        ObjectStore.select_of_find hfind
      rw [ObjectStore.HeadAnswer, hselect] at hserved
      obtain ⟨head', heq, -, hetag, -⟩ := hserved
      obtain rfl := Except.ok.inj heq
      rw [hetag]
      exact hanswer.lists hdelim hmax hall hlistable hkey hfind hpre hafter

end Agreement

/-! ## A sample -/

/-- The sample with files of one letter, behind a gateway without caches. -/
def sample : StoredTree :=
  ofContent HdfsGateway.reference.withoutCache .sample
    (fun x => ⟨List.replicate x.length.toNat 0x78, List.length_replicate⟩)
    fun x _ => Nat.le_sub_one_of_lt x.length.toNat_lt

/-- After any run a further request can be made, and is answered. -/
theorem exists_next (w : StoredTree) {now : ℕ}
    {s : Pool Cmd Cmd.Resp (World w.gateway.crates Unit) S3Request Response}
    (hs : w.gateway.Reachable w.hdfs.hdfs now () s) (req : S3Request) :
    ∃ s', w.gateway.Reachable w.hdfs.hdfs now () s' ∧
      (∀ tid req' res, s.Finished tid req' res → s'.Finished tid req' res) ∧
      s'.Finished s.tasks.length req (w.gateway.uncached w.hdfs req) := by
  have hreply : ∀ d u, w.hdfs.hdfs.answer d u ((fun _ => w.hdfs.reply) d u) := fun _ _ => rfl
  have htask : (s.tasks ++ [(⟨req, w.gateway.serve req⟩ : Task Cmd Cmd.Resp S3Request Response)])[
      s.tasks.length]? = some ⟨req, w.gateway.serve req⟩ := List.getElem?_concat_length
  have hrun := (hs.start req).runToEnd (World.exec_step hreply) _ htask
  obtain ⟨s', hs', hkeeps, res, hfin⟩ : ∃ s', w.gateway.Reachable w.hdfs.hdfs now () s' ∧
      (∀ tid req' res, s.Finished tid req' res → s'.Finished tid req' res) ∧
      ∃ res, s'.Finished s.tasks.length req res := by
    refine ⟨_, hrun, fun tid req' res hold => ?_, ?_⟩
    · have hlt := (List.getElem?_eq_some_iff.mp hold).1
      change ((s.tasks ++ _).set _ _)[tid]? = _
      rw [List.getElem?_set_ne (Nat.ne_of_gt hlt), List.getElem?_append_left hlt]
      exact hold
    · exact ⟨_, List.getElem?_set_self (by simp [Pool.start])⟩
  exact ⟨s', hs', hkeeps, HdfsGateway.finished_eq_uncached hs' hfin ▸ hfin⟩

/-- A GET of the last byte of `a.txt` in the sample. -/
theorem refines_store_sample :
    let req : S3Request := .getObject ⟨[0x62], [0x61, 0x2E, 0x74, 0x78, 0x74], {}, some (.suffix 1)⟩ 2
    ∃ s res, sample.gateway.Reachable sample.hdfs.hdfs 0 () s ∧ s.Finished 0 req res ∧
      sample.store.Answers sample.gateway req res := by
  intro req
  have hinit : sample.gateway.Reachable sample.hdfs.hdfs 0 () _ := .init
  obtain ⟨s, hs, -, hfin⟩ := exists_next sample hinit req
  exact ⟨s, _, hs, hfin, refines_store sample hs hfin (by simp [req])⟩

/-- What a listing of the sample shows is what a HEAD finds. -/
theorem lists_what_it_serves_sample :
    ∃ s out, sample.gateway.Reachable sample.hdfs.hdfs 0 () s ∧
      s.Finished 0 (.listObjectsV2 { bucket := [0x62] } 4) (.listObjectsV2 (.ok out)) ∧
      ∀ obj, .inl obj ∈ out.items → ∀ tid r,
        s.Finished tid (.headObject ⟨sample.gateway.mapper.bucket, obj.key, {}⟩) (.headObject r) →
        ∃ head, r = .ok head ∧ head.contentLength = obj.size ∧ head.eTag = obj.eTag ∧
          head.lastModified = obj.lastModified := by
  have hinit : sample.gateway.Reachable sample.hdfs.hdfs 0 () _ := .init
  obtain ⟨s, hs, -, hlist⟩ := exists_next sample hinit (.listObjectsV2 { bucket := [0x62] } 4)
  obtain ⟨-, out, -, -, hout, -⟩ :=
    @list_answer sample { bucket := [0x62] } 4 (by decide) ⟨[], none, 1000, none⟩ rfl
  have hres : sample.gateway.uncached sample.hdfs (.listObjectsV2 { bucket := [0x62] } 4) =
      .listObjectsV2 (.ok out) := by
    rw [HdfsGateway.uncached, HdfsGateway.serve, Prog.eval_map, hout]
  rw [hres] at hlist
  have hserves := lists_what_it_serves hs (by decide) hlist
  exact ⟨s, out, hs, hlist, fun obj hobj => (hserves.1 obj hobj).1⟩

end StoredTree

end HdfsS3Gateway
