import HdfsS3Gateway.S3.ChangingOutputs

/-!
# Listing requests while HDFS changes

A listing request builds its page from what it is told, one directory after the other. Under any
interleaving the page is therefore cut from outputs, if HDFS is settled.

For runs on concrete inputs an HDFS can be given as one static namespace after another.
-/

namespace HdfsS3Gateway

open Interaction Lexicographic

/-! ## Requests -/

/-- The collected entries are what the engine makes of replies of HDFS, if a listing starts. -/
def Collects (m : PathMapper) (log : List Event) (fuel : ℕ) (args : ListArgs) (limit : Option ℕ)
    (collected : List ListEntry × Bool) : Prop :=
  m.listStart args.pre = none ∧ collected = ([], false) ∨
  ∃ start told, m.listStart args.pre = some start ∧
    ((SortedListing.new start args.pre args.startAfter m).collectPage fuel limit).Runs told
      (.ok collected) ∧ ∀ e ∈ told, Relays m log e

/-- If HDFS is settled the page is cut from outputs. -/
def Paged (m : PathMapper) (log : List Event) (args : ListArgs) (page : Page) : Prop :=
  args.maxKeys ≠ 0 → args.delimiter ≠ some [] → Settled log → ∃ outputs, Cuts m log args page outputs

section Paged

variable {m : PathMapper} {log : List Event} {args : ListArgs} {fuel : ℕ}

/-- The page of a listing without a delimiter. -/
theorem Collects.paged_flat {entries : List ListEntry} {truncated : Bool}
    (h : Collects m log fuel args (some args.maxKeys) (entries, truncated))
    (hdelim : args.delimiter = none) : Paged m log args (flatPage entries truncated) := by
  intro hmax _ hsettled
  rcases h with ⟨hstart, heq⟩ | ⟨start, told, hstart, hruns, hrelays⟩
  · obtain ⟨rfl, rfl⟩ := Prod.mk.inj heq
    refine ⟨[], cuts_unstarted hstart ?_⟩
    have hnil : retain Output.key args.startAfter [] = [].map Sum.inl := by
      cases args.startAfter <;> rfl
    rw [hnil, Page.cut_files]
    simp [flatPage]
  · obtain ⟨qs, hplain, rfl⟩ := exists_start hstart
    have hbound : entries.length ≤ args.maxKeys :=
      (SortedListing.collectPage_reached (starts_new hplain hstart).toIsFresh (by simpa using hmax)
        hruns).bound _ rfl
    exact cuts_flat hplain hstart hmax hdelim hruns hbound hrelays hsettled

/-- The page for any other delimiter. -/
theorem Collects.paged_delimiter {entries : List ListEntry} {truncated : Bool}
    (h : Collects m log fuel args none (entries, truncated)) :
    Paged m log args
      (paginate entries [] args.pre args.delimiter args.startAfter args.maxKeys) := by
  intro hmax hdelim hsettled
  rcases h with ⟨hstart, heq⟩ | ⟨start, told, hstart, hruns, hrelays⟩
  · obtain ⟨rfl, rfl⟩ := Prod.mk.inj heq
    refine ⟨[], cuts_unstarted hstart (paginate_eq_cut (by simp) .nil (fun x _ => ?_) hmax)⟩
    cases x <;> simp [IsOutput]
  · obtain ⟨qs, hplain, rfl⟩ := exists_start hstart
    exact cuts_delimiter hplain hstart hmax hdelim hruns hrelays hsettled

/-- The page for the delimiter `/`. -/
theorem paged_slash {start : Str} {listing : DirListing} (hstart : m.listStart args.pre = some start)
    (hslash : args.delimiter = some [slash]) (hrelays : Relays m log ⟨start, .ok listing⟩) :
    Paged m log args
      (paginateSlash listing.files listing.dirs args.pre args.startAfter args.maxKeys) := by
  intro hmax _ hsettled
  obtain ⟨qs, hplain, rfl⟩ := exists_start hstart
  exact cuts_slash hplain hstart hmax hslash hrelays hsettled

/-- The page for the delimiter `/` when there is nothing to list. -/
theorem paged_empty (h : ∀ start, m.listStart args.pre = some start →
      ∃ err, Relays m log ⟨start, .error err⟩) :
    Paged m log args (paginateSlash [] [] args.pre args.startAfter args.maxKeys) := by
  intro hmax _ _
  cases hstart : m.listStart args.pre with
  | none => exact ⟨[], cuts_unstarted hstart (ReadableTree.paginateSlash_empty hmax)⟩
  | some start =>
    obtain ⟨qs, hplain, rfl⟩ := exists_start hstart
    obtain ⟨err, hrelays⟩ := h _ hstart
    exact ⟨[], cuts_missing hplain hstart hmax hrelays⟩

end Paged

namespace HdfsGateway

variable {self : HdfsGateway} {H : Type} {hdfs : Hdfs H} {tid : ℕ} {w w' : World self.crates H}

/-- The entries of a recursive listing are what the engine makes of replies of HDFS. -/
theorem collectFlat_collects (fuel : ℕ) (args : ListArgs) (limit : Option ℕ)
    (w : World self.crates H) :
    (self.collectFlat fuel args limit).Ensures (self.dated hdfs) tid (fun v r =>
      ∀ collected, r = .ok collected → Collects self.mapper v.log fuel args limit collected) w := by
  unfold collectFlat
  cases hstart : self.mapper.listStart args.pre with
  | none =>
    intro v _ collected heq
    exact .inl ⟨hstart, (Except.ok.inj heq).symm⟩
  | some start =>
    apply Prog.ensures_bind
    have hown : ∀ (v : World self.crates H) c r v' e, World.Exec hdfs tid v c r v' →
        Relays self.mapper v.log e → Relays self.mapper v'.log e := fun v c r v' e hexec he =>
      hexec.frame.2.2 ▸ relays_append he
    have hlist : ∀ dir (v : World self.crates H), (self.listDir dir).Ensures (self.dated hdfs) tid
        (fun v' r => Relays self.mapper v'.log ⟨dir, r⟩) v := listDir_relays
    have hlater : ∀ (v v' : World self.crates H) e, (self.dated hdfs).later tid v v' →
        Relays self.mapper v.log e → Relays self.mapper v'.log e := fun _ _ _ => relays_later
    apply (Prog.ensures_handle hlater hown hlist _ w).stable.mono
    intro v r htold
    cases r with
    | error err => cases err <;> exact fun _ _ _ heq => by contradiction
    | ok page =>
      intro v' hle collected heq
      obtain rfl := Except.ok.inj heq
      obtain ⟨told, hruns, hrelays⟩ := htold v' hle
      exact .inr ⟨start, told, hstart, hruns, hrelays⟩

/-- A page is cut from outputs. -/
theorem listPage_paged (fuel : ℕ) (args : ListArgs) (w : World self.crates H) :
    (self.listPage fuel args).Ensures (self.dated hdfs) tid
      (fun v r => ∀ page, r = .ok page → Paged self.mapper v.log args page) w := by
  unfold listPage
  split_ifs with hslash hsome
  · apply Prog.ensures_bind
    unfold listStartDir
    cases hstart : self.mapper.listStart args.pre with
    | none =>
      intro v _ v' _ page heq
      obtain rfl := Except.ok.inj heq
      exact paged_empty fun start h => by rw [hstart] at h; contradiction
    | some start =>
      apply (listDir_relays start w).stable.mono
      intro v r hrelays
      cases r with
      | ok listing =>
        intro v' hle page heq
        obtain rfl := Except.ok.inj heq
        exact paged_slash hstart hslash (hrelays v' hle)
      | error err =>
        cases err with
        | fileNotFound path =>
          intro v' hle page heq
          obtain rfl := Except.ok.inj heq
          refine paged_empty fun start' h => ⟨.fileNotFound path, ?_⟩
          obtain rfl := Option.some.inj (hstart.symm.trans h)
          exact hrelays v' hle
        | _ => exact fun _ _ _ heq => by contradiction
  · apply Prog.ensures_bind
    unfold collectAll
    split_ifs with hmax
    · exact fun v _ v' _ page _ hpos => absurd hmax hpos
    · apply (collectFlat_collects fuel args none w).stable.mono
      intro v r hcollects v' hle page heq
      cases r with
      | error err => contradiction
      | ok collected =>
        obtain rfl := Except.ok.inj heq
        exact (hcollects v' hle collected rfl).paged_delimiter
  · apply Prog.ensures_bind
    apply (collectFlat_collects fuel args (some args.maxKeys) w).stable.mono
    intro v r hcollects v' hle page heq
    cases r with
    | error err => contradiction
    | ok collected =>
      obtain rfl := Except.ok.inj heq
      exact (hcollects v' hle collected rfl).paged_flat (Option.not_isSome_iff_eq_none.mp hsome)

/-- A listing that is answered was cut from outputs. -/
def PageFor (self : HdfsGateway) (log : List Event) : S3Request → Response → Prop
  | .listObjectsV2 input _, .listObjectsV2 (.ok out) => ∃ args page, self.listArgs input = .ok args ∧
    out = self.listOutput input args page ∧ Paged self.mapper log args page
  | _, _ => True

/-- What a request is answered. -/
theorem serve_page (req : S3Request) (w : World self.crates H) :
    (self.serve req).Ensures (self.dated hdfs) tid (fun v res => self.PageFor v.log req res) w := by
  cases req with
  | headObject input => exact (serve_told (.headObject input) tid w).mono fun _ _ _ => trivial
  | getObject input polls => exact (serve_told (.getObject input polls) tid w).mono fun _ _ _ => trivial
  | listObjectsV2 input fuel =>
    apply Prog.ensures_map
    unfold listObjectsV2
    cases hargs : self.listArgs input with
    | error err => exact fun _ _ => trivial
    | ok args =>
      apply Prog.ensures_bind
      apply (listPage_paged fuel args w).stable.mono
      intro v r hpaged v' hle
      cases r with
      | error err => trivial
      | ok page => exact ⟨args, page, hargs, rfl, hpaged v' hle page rfl⟩

/-! ## One namespace after another -/

/-- An HDFS that is one static namespace after another. -/
def movingHdfs (n : H → StaticHdfs) : Hdfs H where
  answer d u r := r = (n d).reply u
  change _ _ := True

/-- Whatever HDFS replied it could reply in some state. -/
theorem replies_answered (hs : self.Reachable hdfs now start s) :
    ∀ e ∈ s.world.log, ∀ u r, e.Replies u r → ∃ d, hdfs.answer d u r := by
  induction hs with
  | init => simp [World.init]
  | step _ hstep ih =>
    cases hstep with
    | start w tasks req => exact ih
    | @exec w w' tasks tid req c k r htask hexec =>
      intro e he u r' hreplies
      change e ∈ w'.log at he
      rw [hexec.frame.2.2] at he
      rcases List.mem_append.mp he with he | he
      · exact ih e he u r' hreplies
      · rw [List.mem_singleton.mp he] at hreplies
        obtain ⟨-, -, rfl, hr⟩ := Event.mk.inj hreplies
        obtain rfl := eq_of_heq hr
        exact ⟨w.hdfs, hexec.1⟩
    | outside tasks hout =>
      intro e he
      rcases hout with ⟨d, rfl⟩ | ⟨_, -, rfl⟩ <;> exact ih e he

/-- Without caches, when HDFS has moved on, a further request is answered from its new state. -/
theorem exists_served {n : H → StaticHdfs} (hdisabled : self.Uncached)
    (hs : self.Reachable (movingHdfs n) now start s) (d : H) (req : S3Request) :
    ∃ s', self.Reachable (movingHdfs n) now start s' ∧
      (∀ tid req' res, s.Finished tid req' res → s'.Finished tid req' res) ∧
      s'.Finished s.tasks.length req ((self.serve req).eval (n d).missing) := by
  have hreply : ∀ d u, (movingHdfs n).answer d u ((fun d => (n d).reply) d u) := fun _ _ => rfl
  have hstart := (hs.change (d := d) trivial).start req
  have htask : (s.tasks ++ [(⟨req, self.serve req⟩ : Task Cmd Cmd.Resp S3Request Response)])[
      s.tasks.length]? = some ⟨req, self.serve req⟩ := List.getElem?_concat_length
  have hrun := hstart.runToEnd (World.exec_step hreply) _ htask
  have hdated : self.Dated s.world := hs.inv (self.dated (movingHdfs n))
    (fun tid req v res => self.PageFor v.log req res) (dated_init now start)
    fun _ req w _ => serve_page req w
  have hinv : ∀ (w : World self.crates H) c, (w.caches.HasTtl (fun _ => 0) ∧ w.hdfs = d) →
      (World.step (fun d => (n d).reply) s.tasks.length w c).1 = (n d).missing c ∧
      ((World.step (fun d => (n d).reply) s.tasks.length w c).2.caches.HasTtl (fun _ => 0) ∧
        (World.step (fun d => (n d).reply) s.tasks.length w c).2.hdfs = d) := by
    rintro w c ⟨hw, rfl⟩
    refine ⟨?_, World.hasTtl_cachesAfter hw, rfl⟩
    cases c with
    | cacheGet name path => exact Caches.get_of_disabled hw
    | cacheInsert | cacheRemove | upstream => rfl
  have httl : s.world.caches.HasTtl fun _ => 0 := fun name => by
    rw [hdated.ttls name, ttlOf, ttl, if_neg (by simp [hdisabled])]
  refine ⟨_, hrun, fun tid req' res hfin => ?_, ?_⟩
  · have hlt := (List.getElem?_eq_some_iff.mp hfin).1
    change ((s.tasks ++ _).set _ _)[tid]? = _
    rw [List.getElem?_set_ne (Nat.ne_of_gt hlt), List.getElem?_append_left hlt]
    exact hfin
  · change ((s.tasks ++ _).set _ _)[s.tasks.length]? = _
    rw [List.getElem?_set_self (by simp)]
    exact congrArg (fun res => some (Task.mk req (Prog.ret res)))
      (Prog.runOn_eq_eval (n d).missing _ hinv _ ⟨httl, rfl⟩)

end HdfsGateway

end HdfsS3Gateway
