import HdfsS3Gateway.S3.Dated

/-!
# Staleness is bounded by the TTL

Whatever HDFS does, a hit is younger than the TTL of its cache: the value was inserted less than
the TTL ago, and its path was not removed since. It was inserted by a request whose own preceding
command was the call to HDFS that gave the value, so a value never outlives its insertion by being
looked up. With caching disabled nothing is ever hit and every request makes its own calls.

The TTL starts when the value is inserted. Nothing bounds the time between the reply of HDFS and
the insertion, so the reply itself may be older than the TTL when it is hit.
-/

namespace HdfsS3Gateway

open Interaction History

namespace HdfsGateway

variable {self : HdfsGateway} {H : Type} {hdfs : Hdfs H} {tid : ℕ} {w : World self.crates H}

/-! ## Metadata and readers -/

/-- A stat calls HDFS, and inserts what it is told. -/
theorem ensures_statFile (path : Str) : (self.statFile path).Ensures (self.dated hdfs) tid
    (fun v _ => Called tid (.getFileInfo path) v.log) w := by
  apply ensures_upstream
  intro r v htold
  have hcalled : Called tid (.getFileInfo path) v.log := ⟨r, answered_of_since htold⟩
  suffices hclean : Prog.Ensures (self.dated hdfs) tid _ (fun _ _ => True) v from
    (ensures_called hclean hcalled).mono fun _ _ h => h.2
  cases r with
  | ok status =>
    apply Prog.ensures_bind
    apply (ensures_insert _).mono fun _ _ _ => Rely.keeps_pure _ tid _
    exact htold.mono fun e _ he => ⟨he.1, status, he.2, rfl⟩
  | error err =>
    cases err with
    | fileNotFound missing =>
      apply Prog.ensures_bind
      apply (ensures_insert _).mono fun _ _ _ => Rely.keeps_pure _ tid _
      exact htold.mono fun e _ he => ⟨he.1, missing, he.2⟩
    | _ => exact Rely.keeps_pure _ tid v

/-- Without caches the metadata costs a call. -/
theorem ensures_fileMeta (path : Str) : (self.fileMeta path).Ensures (self.dated hdfs) tid
    (fun v _ => self.config.cache.enabled = false → Called tid (.getFileInfo path) v.log) w := by
  have hhit : ∀ (res : Except S3Error FileMeta) v, self.config.cache.enabled = true →
      (pure res : Req _).Ensures (self.dated hdfs) tid (fun v _ =>
        self.config.cache.enabled = false → Called tid (.getFileInfo path) v.log) v := by
    intro res v henabled v' _ hdisabled
    rw [henabled] at hdisabled
    contradiction
  apply ensures_lookup
  · intro v
    apply ensures_lookup
    · exact fun v => (ensures_statFile path).mono fun _ _ h _ => h
    · exact fun _ => hhit _
  · exact fun _ => hhit _

/-- The condition under which the calls of a request are followed. -/
abbrev Uncached (self : HdfsGateway) : Prop := self.config.cache.enabled = false

/-- Opening a path returns the reader that HDFS gave, and inserts it. -/
theorem ensures_readFile (path : Str) (label : FileMeta) :
    (self.readFile path label).Ensures (self.dated hdfs) tid (fun v res => ∀ reader,
      res = .ok reader → Answered tid (.read path label) (.ok reader) v.log) w := by
  apply ensures_upstream
  intro r v htold
  cases r with
  | ok reader =>
    have hinsert : Told self.mapper tid .blocks path
        (⟨reader, label.length, label.modificationTime⟩ : CachedReader) v.log :=
      htold.mono fun e _ he => ⟨he.1, reader, label, he.2, rfl⟩
    apply Prog.ensures_bind
    apply (ensures_answered (ensures_insert hinsert) (answered_of_since htold)).mono
    intro v' _ h v'' hle reader' hok
    obtain rfl := Except.ok.inj hok
    exact answered_later hle h.2
  | error err =>
    apply Prog.ensures_bind
    apply (keeps_cacheRemove reads_keep_dated _ _ tid v).mono
    intro v' _ _ v'' _ reader hreader
    contradiction

/-- Without caches a reader costs a call, whose reply it is. -/
theorem ensures_openReader (path : Str) (label : FileMeta) :
    (self.openReader path label).Ensures (self.dated hdfs) tid (fun v res =>
      self.Uncached → ∀ reader, res = .ok reader →
        Answered tid (.read path label) (.ok reader) v.log) w := by
  apply ensures_lookup
  · exact fun v => (ensures_readFile path label).mono fun _ _ h _ => h
  · intro cached v henabled
    simp only []
    split
    · intro v' _ hdisabled
      rw [Uncached, henabled] at hdisabled
      contradiction
    · apply Prog.ensures_bind
      apply (keeps_cacheRemove reads_keep_dated _ _ tid v).mono
      exact fun v' _ _ => (ensures_readFile path label).mono fun _ _ h _ => h

/-- Metadata and readers are only inserted as told. -/
theorem fileMeta_told (path : Str) : (self.dated hdfs).Keeps (self.fileMeta path) := fun _ _ =>
  (ensures_fileMeta path).mono fun _ _ _ => trivial

theorem openReader_told (path : Str) (label : FileMeta) :
    (self.dated hdfs).Keeps (self.openReader path label) := fun _ _ =>
  (ensures_openReader path label).mono fun _ _ _ => trivial

/-! ## HEAD and GET -/

/-- Without caches a HEAD stats the path of its key. -/
theorem ensures_headObject {input : HeadObjectInput} {path : Str}
    (hpath : self.resolvePath input.bucket input.key = .ok path) :
    (self.headObject input).Ensures (self.dated hdfs) tid (fun v _ =>
      self.Uncached → Called tid (.getFileInfo path) v.log) w := by
  unfold headObject
  rw [hpath]
  apply ensures_called_bind (ensures_fileMeta path)
  intro status
  split <;> exact Rely.keeps_pure _

/-- Without caches the reader of a GET is the reply to a call of its own. -/
theorem ensures_openObject (path : Str) (label : FileMeta) (prepared : Prepared) :
    (self.openObject path label prepared).Ensures (self.dated hdfs) tid (fun v res =>
      self.Uncached → ∀ p object, res = .ok (p, object) →
        Answered tid (.read path label) (.ok object.reader) v.log) w := by
  apply Prog.ensures_bind
  apply (ensures_openReader path label).mono
  intro v opened hread
  split
  · intro v' _ _ p object hok
    contradiction
  · rename_i reader
    split
    · apply Prog.ensures_bind
      apply (keeps_cacheRemove reads_keep_dated _ _ tid v).mono
      intro v' _ _
      apply Prog.ensures_bind
      apply (keeps_cacheRemove reads_keep_dated _ _ tid v').mono
      intro v'' _ _ v _ _ p object hok
      contradiction
    · intro v' hle hdisabled p object hok
      obtain ⟨-, rfl⟩ := Prod.mk.inj (Except.ok.inj hok)
      exact answered_later hle (hread hdisabled reader rfl)

/-- Without caches a GET stats the path of its key, and its reader is the reply to a call of its
own. -/
theorem ensures_getObject {input : GetObjectInput} {path : Str}
    (hpath : self.resolvePath input.bucket input.key = .ok path) :
    (self.getObject input).Ensures (self.dated hdfs) tid (fun v res =>
      (self.Uncached → Called tid (.getFileInfo path) v.log) ∧
      (self.Uncached → ∀ p object, res = .ok (p, object) →
        ∃ label, Answered tid (.read path label) (.ok object.reader) v.log)) w := by
  unfold getObject
  rw [hpath]
  apply Prog.Ensures.and
  · apply ensures_called_bind (ensures_fileMeta path)
    intro status
    split
    · exact Rely.keeps_pure _
    · split
      · exact Rely.keeps_pure _
      · exact keeps_openObject reads_keep_dated (openReader_told _ _)
  · apply Prog.ensures_bind
    apply (fileMeta_told path tid w).mono
    intro v status _
    split
    · intro v' _ _ p object hok
      contradiction
    · split
      · intro v' _ _ p object hok
        contradiction
      · apply (ensures_openObject _ _ _).mono
        exact fun _ _ h hdisabled p object hok => ⟨_, h hdisabled p object hok⟩

/-- So a GET with its body makes the calls of the GET. -/
theorem ensures_serveGet {input : GetObjectInput} {path : Str} (polls : ℕ)
    (hpath : self.resolvePath input.bucket input.key = .ok path) :
    (self.serveGet input polls).Ensures (self.dated hdfs) tid (fun v res => self.Uncached →
      Called tid (.getFileInfo path) v.log ∧ ∀ object body, res = .ok (object, body) →
        ∃ label, Answered tid (.read path label) (.ok object.reader) v.log) w := by
  apply Prog.ensures_bind
  apply (ensures_getObject hpath).mono
  intro v result hget
  split
  · intro v' hle hdisabled
    exact ⟨called_later hle (hget.1 hdisabled), by simp⟩
  · rename_i p object
    by_cases hdisabled : self.Uncached
    · obtain ⟨label, hanswered⟩ := hget.2 hdisabled p object rfl
      apply Prog.ensures_bind
      apply (ensures_called (ensures_answered (keeps_drain reads_keep_dated _ _ _ _ tid v) hanswered)
        (hget.1 hdisabled)).mono
      intro v' out h v'' hle _
      refine ⟨called_later hle h.2, fun object' body hok => ⟨label, ?_⟩⟩
      obtain ⟨rfl, -⟩ := Prod.mk.inj (Except.ok.inj hok)
      exact answered_later hle h.1.2
    · apply Prog.ensures_bind
      apply (keeps_drain reads_keep_dated p object polls _ tid v).mono
      exact fun _ _ _ _ _ h => absurd h hdisabled

/-! ## Listings -/

/-- Listing a directory calls HDFS, and inserts what it is told. -/
theorem ensures_fetchDir (dir : Str) : (self.fetchDir dir).Ensures (self.dated hdfs) tid
    (fun v _ => Called tid (.listStatus dir) v.log) w := by
  apply ensures_upstream
  intro r v htold
  have hcalled : Called tid (.listStatus dir) v.log := ⟨r, answered_of_since htold⟩
  suffices hclean : Prog.Ensures (self.dated hdfs) tid _ (fun _ _ => True) v from
    (ensures_called hclean hcalled).mono fun _ _ h => h.2
  cases r with
  | error err => exact Rely.keeps_pure _ tid v
  | ok statuses =>
    simp only []
    split
    · apply Prog.ensures_bind
      apply (ensures_insert _).mono fun _ _ _ => Rely.keeps_pure _ tid _
      exact htold.mono fun e _ he => ⟨he.1, statuses, he.2, rfl⟩
    · exact Rely.keeps_pure _ tid v

/-- Without caches the listing of a directory costs a call. -/
theorem ensures_listDir (dir : Str) : (self.listDir dir).Ensures (self.dated hdfs) tid
    (fun v _ => self.Uncached → Called tid (.listStatus dir) v.log) w := by
  apply ensures_lookup
  · exact fun v => (ensures_fetchDir dir).mono fun _ _ h _ => h
  · intro listing v henabled v' _ hdisabled
    rw [Uncached, henabled] at hdisabled
    contradiction

theorem listDir_told (dir : Str) : (self.dated hdfs).Keeps (self.listDir dir) := fun _ _ =>
  (ensures_listDir dir).mono fun _ _ _ => trivial

/-- Every request only inserts what it is told. -/
theorem serve_told (req : S3Request) : (self.dated hdfs).Keeps (self.serve req) := by
  cases req with
  | headObject input =>
    apply Rely.keeps_bind _ fun _ => Rely.keeps_pure _
    intro tid w
    cases hpath : self.resolvePath input.bucket input.key with
    | error err =>
      unfold headObject
      rw [hpath]
      exact Rely.keeps_pure _ tid w
    | ok path => exact (ensures_headObject hpath).mono fun _ _ _ => trivial
  | getObject input polls =>
    apply Rely.keeps_bind _ fun _ => Rely.keeps_pure _
    intro tid w
    cases hpath : self.resolvePath input.bucket input.key with
    | error err =>
      unfold serveGet getObject
      rw [hpath]
      exact Rely.keeps_pure _ tid w
    | ok path => exact (ensures_serveGet polls hpath).mono fun _ _ _ => trivial
  | listObjectsV2 input fuel =>
    apply Rely.keeps_bind _ fun _ => Rely.keeps_pure _
    unfold listObjectsV2
    split
    · exact Rely.keeps_pure _
    · exact Rely.keeps_bind (keeps_listPage listDir_told fuel _) fun _ => Rely.keeps_pure _

end HdfsGateway

end HdfsS3Gateway
