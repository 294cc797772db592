import HdfsS3Gateway.S3.GetObject
import HdfsS3Gateway.S3.Validity

/-!
# Versions of a file behind a GET

An external writer replaces files. HDFS is the list of the versions that each path ever had, and a
version is known by its length and modification time, which never recur. A stat and an opening see
the version that is current at their own moment, and the two are made at different moments.

What a reader may be opened on, given the identity it is opened for, is a parameter: the invariant
is the same whether every opening still finds that identity or only no older one. The first holds
when no replacement falls between the stat and the opening, the second always.
-/

namespace HdfsS3Gateway

open Interaction

/-! ## Files with a history -/

/-- The identity of a version of a file. -/
structure Version where
  length : UInt64
  modificationTime : UInt64
  deriving DecidableEq, Repr

/-- The versions that each path ever had, oldest first; no identity recurs. -/
structure VersionedFiles where
  versions : Str → List Version
  nodup : ∀ path, (versions path).Nodup

/-- Versions are only ever added. -/
instance : Preorder VersionedFiles where
  le h h' := ∀ path, h.versions path <+: h'.versions path
  le_refl _ _ := List.prefix_rfl
  le_trans _ _ _ h h' path := (h path).trans (h' path)

/-- The identity of reported or cached metadata, and the one that a cached reader is kept for. -/
def FileStatus.version (s : FileStatus) : Version := ⟨s.length, s.modificationTime⟩
def FileMeta.version (m : FileMeta) : Version := ⟨m.length, m.modificationTime⟩
def CachedReader.version (c : CachedReader) : Version := ⟨c.length, c.modificationTime⟩

namespace VersionedFiles

/-- The reader was opened on this version of the path. -/
def OpenedOn (h : VersionedFiles) (path : Str) (v : Version) (reader : FileReader) : Prop :=
  (h.versions path)[reader.opened]? = some v

/-- The reader was opened on this version of the path or on a later one. -/
def OpenedSince (h : VersionedFiles) (path : Str) (v : Version) (reader : FileReader) : Prop :=
  ∃ i, (h.versions path)[i]? = some v ∧ i ≤ reader.opened ∧
    reader.opened < (h.versions path).length

/-- What a call can be answered with: a stat of a file reports the current version and an opening
opens it; any call may fail, and directories, listings and file contents are left open. -/
def Answers (h : VersionedFiles) : (u : Upstream) → u.Reply → Prop
  | .getFileInfo path, .ok status =>
    (status : FileStatus).isdir = false → (h.versions path).getLast? = some status.version
  | .read path _, .ok reader => (reader : FileReader).path = path ∧
      ∃ v, (h.versions path).getLast? = some v ∧ h.OpenedOn path v reader ∧
        reader.fileLength = v.length.toNat
  | _, _ => True

/-- HDFS with an external writer that replaces files at any time. -/
def hdfs : Hdfs VersionedFiles := ⟨Answers, (· ≤ ·)⟩

variable {h h' : VersionedFiles} {path : Str} {v v' : Version} {reader reader' : FileReader}

/-- A version stays where it is when others are added. -/
theorem getElem?_mono {i : ℕ} (hle : h ≤ h') (hv : (h.versions path)[i]? = some v) :
    (h'.versions path)[i]? = some v := by
  obtain ⟨added, heq⟩ := hle path
  rw [← heq, List.getElem?_append_left (List.getElem?_eq_some_iff.mp hv).1, hv]

/-- So the version a reader was opened on is found there for good. -/
theorem OpenedSince.mono (hle : h ≤ h') (hv : h.OpenedSince path v reader) :
    h'.OpenedSince path v reader := by
  obtain ⟨i, hi, hopened, hlt⟩ := hv
  exact ⟨i, getElem?_mono hle hi, hopened, Nat.lt_of_lt_of_le hlt (hle path).length_le⟩

/-- An identity that the path has had is not younger than the current version. -/
theorem openedSince_of_current {current : Version} (hv : v ∈ h.versions path)
    (hlast : (h.versions path).getLast? = some current) (hopened : h.OpenedOn path current reader) :
    h.OpenedSince path v reader := by
  obtain ⟨i, hi, rfl⟩ := List.getElem_of_mem hv
  have hopenedLt := (List.getElem?_eq_some_iff.mp hopened).1
  refine ⟨i, List.getElem?_eq_getElem hi, ?_, hopenedLt⟩
  -- no identity recurs, so the reader's version is the last one
  rw [List.getLast?_eq_getElem?] at hlast
  have hidx : reader.opened = (h.versions path).length - 1 :=
    (List.getElem?_inj hopenedLt (h.nodup path)).mp (hopened.trans hlast.symm)
  omega

/-- Two readers of one version were opened on the same version. -/
theorem OpenedOn.unique (hv : h.OpenedOn path v reader) (hv' : h.OpenedOn path v reader') :
    reader.opened = reader'.opened := by
  have hlt := (List.getElem?_eq_some_iff.mp hv).1
  exact (List.getElem?_inj hlt (h.nodup path)).mp (hv.trans hv'.symm)

end VersionedFiles

/-! ## Labels -/

/-- What is known of an identity that metadata carries, and of a reader that was opened for it. -/
structure Labelling {crates : Crates} (M : Machine Cmd Cmd.Resp (World crates VersionedFiles)) where
  Named : VersionedFiles → Str → Version → Prop
  Opened : VersionedFiles → Str → Version → FileReader → Prop
  named_mono : ∀ {h h' path v}, h ≤ h' → Named h path v → Named h' path v
  opened_mono : ∀ {h h' path v reader}, h ≤ h' → Opened h path v reader → Opened h' path v reader
  exec : ∀ {tid w c r w'}, M.exec tid w c r w' → w.Exec VersionedFiles.hdfs tid c r w'
  outside : ∀ {w w'}, M.outside w w' → World.Outside VersionedFiles.hdfs w w'
  /-- The current version is named. -/
  stat : ∀ {h path v}, (h.versions path).getLast? = some v → Named h path v
  /-- An opening for a named identity opens what it should. -/
  read : ∀ {tid w w' path label reader},
    M.exec tid w (.upstream (.read path label)) (.ok reader) w' →
      Named w.hdfs path label.version → Opened w.hdfs path label.version reader

/-- Cached metadata of a file carries a named identity, and a cached reader was opened for the
identity it is kept for. -/
def Labelling.validity {crates : Crates} {M : Machine Cmd Cmd.Resp (World crates VersionedFiles)}
    (L : Labelling M) : Validity VersionedFiles.hdfs M where
  Valid
    | h, .metadata, path, m => (m : FileMeta).isdir = false → L.Named h path m.version
    | h, .blocks, path, cached => L.Opened h path (cached : CachedReader).version cached.reader
    | _, _, _, _ => True
  mono {h h' name path value} hle hvalid := by
    cases name with
    | metadata => exact fun hdir => L.named_mono hle (hvalid hdir)
    | blocks => exact L.opened_mono hle hvalid
    | negative | dirs => trivial
  exec := L.exec
  outside := L.outside
  change h := h

namespace HdfsGateway

variable {self : HdfsGateway} {M : Machine Cmd Cmd.Resp (World self.crates VersionedFiles)}
  {L : Labelling M} {tid : ℕ} {w : World self.crates VersionedFiles}

/-- A stat of a file returns a named identity. -/
theorem ensures_statFile_named (path : Str) :
    (self.statFile path).Ensures L.validity.rely tid (fun v res => ∀ m, res = .ok m →
      m.isdir = false → L.Named v.hdfs path m.version) w := by
  apply Validity.ensures_upstream
  intro w' r w'' v _ hexec hle
  cases r with
  | ok status =>
    have hnamed : (status : FileStatus).isdir = false → L.Named v.hdfs path status.version :=
      fun hdir => L.named_mono hle (L.stat ((L.exec hexec).1 hdir))
    apply Prog.ensures_bind
    apply Prog.Ensures.mono (Validity.ensures_insert hnamed)
    intro v' _ hv' v'' hv'' m hm hdir
    obtain rfl := Except.ok.inj hm
    exact L.named_mono (le_trans hv' hv'') (hnamed hdir)
  | error err =>
    cases err with
    | fileNotFound missing =>
      apply Prog.ensures_bind
      apply Prog.Ensures.mono (Validity.ensures_insert trivial)
      intro v' _ _ v'' _ m hm
      contradiction
    | _ =>
      intro v' _ m hm
      contradiction

/-- So does the metadata, from the cache or not. -/
theorem ensures_fileMeta_named (path : Str) :
    (self.fileMeta path).Ensures L.validity.rely tid (fun v res => ∀ m, res = .ok m →
      m.isdir = false → L.Named v.hdfs path m.version) w := by
  apply Validity.ensures_lookup
  · intro v _
    apply Validity.ensures_lookup
    · exact fun v' _ => ensures_statFile_named path
    · intro _ v' _ _ v'' _ m hm
      contradiction
  · intro m v _ hvalid v' hle m' hm hdir
    obtain rfl := Except.ok.inj hm
    exact L.named_mono hle (hvalid hdir)

/-- Opening a path for a named identity returns a reader that was opened for it. -/
theorem ensures_readFile_opened {path : Str} {label : FileMeta}
    (hnamed : L.Named w.hdfs path label.version) :
    (self.readFile path label).Ensures L.validity.rely tid (fun v res => ∀ reader,
      res = .ok reader → L.Opened v.hdfs path label.version reader) w := by
  apply Validity.ensures_upstream
  intro w' r w'' v hle hexec hv
  cases r with
  | ok reader =>
    have hopened := L.opened_mono hv (L.read hexec (L.named_mono hle hnamed))
    apply Prog.ensures_bind
    apply Prog.Ensures.mono (Validity.ensures_insert hopened)
    intro v' _ hv' v'' hv'' reader' hok
    obtain rfl := Except.ok.inj hok
    exact L.opened_mono (le_trans hv' hv'') hopened
  | error err =>
    apply Prog.ensures_bind
    apply (keeps_cacheRemove Validity.reads_keep _ _ tid v).mono
    intro v' _ _ v'' _ reader hok
    contradiction

/-- So does reusing a reader, which is only done for the identity it is kept for. -/
theorem ensures_openReader_opened {path : Str} {label : FileMeta}
    (hnamed : L.Named w.hdfs path label.version) :
    (self.openReader path label).Ensures L.validity.rely tid (fun v res => ∀ reader,
      res = .ok reader → L.Opened v.hdfs path label.version reader) w := by
  apply Validity.ensures_lookup
  · exact fun v hle => ensures_readFile_opened (L.named_mono hle hnamed)
  · intro cached v hle hvalid
    simp only []
    split
    · rename_i hid
      have hversion : CachedReader.version cached = label.version :=
        congrArg₂ Version.mk hid.1 hid.2
      intro v' hv' reader hok
      obtain rfl := Except.ok.inj hok
      rw [← hversion]
      exact L.opened_mono hv' hvalid
    · apply Prog.ensures_bind
      apply Prog.Ensures.mono Validity.ensures_remove
      exact fun v' _ hv' => ensures_readFile_opened (L.named_mono (le_trans hle hv') hnamed)

/-- The reader of a GET was opened for the identity of its metadata, which its ETag names. -/
theorem ensures_openObject_opened {path : Str} {label : FileMeta} {prepared : Prepared}
    (hnamed : L.Named w.hdfs path label.version) :
    (self.openObject path label prepared).Ensures L.validity.rely tid (fun v res =>
      ∀ p object, res = .ok (p, object) → object.output = prepared.output ∧
        L.Opened v.hdfs path label.version object.reader) w := by
  apply Prog.ensures_bind
  apply (ensures_openReader_opened hnamed).mono
  intro v opened hopened
  split
  · intro v' _ p object hok
    contradiction
  · rename_i reader
    split
    · apply Prog.ensures_bind
      apply (keeps_cacheRemove Validity.reads_keep _ _ tid v).mono
      intro v' _ _
      apply Prog.ensures_bind
      apply (keeps_cacheRemove Validity.reads_keep _ _ tid v').mono
      intro v'' _ _ v _ p object hok
      contradiction
    · intro v' hv' p object hok
      obtain ⟨-, rfl⟩ := Prod.mk.inj (Except.ok.inj hok)
      exact ⟨rfl, L.opened_mono hv' (hopened reader rfl)⟩

/-- A successful GET of a path: the ETag names an identity, and the reader was opened for it. -/
def Served (L : Labelling M) (h : VersionedFiles) (path : Str) (object : GetObject) : Prop :=
  ∃ v : Version, object.output.eTag = .strong (fallbackEtag v.length v.modificationTime) ∧
    L.Opened h path v object.reader

theorem Served.mono {h h' : VersionedFiles} {path : Str} {object : GetObject} (hle : h ≤ h')
    (hserved : Served L h path object) : Served L h' path object := by
  obtain ⟨v, hetag, hopened⟩ := hserved
  exact ⟨v, hetag, L.opened_mono hle hopened⟩

/-- A GET that prepares its headers is one of a file. -/
theorem isdir_of_prepare {input : GetObjectInput} {path : Str} {status : FileMeta} {p : Prepared}
    (h : self.prepare input path status = .ok p) : status.isdir = false := by
  unfold prepare at h
  split at h
  · contradiction
  · rename_i hdir
    exact Bool.eq_false_iff.mpr hdir

/-- A GET serves what it was opened for. -/
theorem ensures_getObject_served (input : GetObjectInput) :
    (self.getObject input).Ensures L.validity.rely tid (fun v res => ∀ p object,
      res = .ok (p, object) → ∃ path, self.resolvePath input.bucket input.key = .ok path ∧
        Served L v.hdfs path object) w := by
  unfold getObject
  split
  · intro v _ p object hok
    contradiction
  · rename_i path hpath
    apply Prog.ensures_bind
    apply (ensures_fileMeta_named path).mono
    intro v status hstatus
    split
    · intro v' _ p object hok
      contradiction
    · rename_i label
      split
      · intro v' _ p object hok
        contradiction
      · rename_i prepared hprepared
        have hnamed := hstatus label rfl (isdir_of_prepare hprepared)
        apply (ensures_openObject_opened hnamed).mono
        intro v' res hopened p object hok
        obtain ⟨hout, hreader⟩ := hopened p object hok
        obtain ⟨-, -, -, -, -, -, -, hetag⟩ := self.prepare_eq_ok hprepared
        exact ⟨path, hpath, label.version, by rw [hout, hetag]; rfl, hreader⟩

/-- What a request has served when it has returned: a successful GET, what it was opened for. -/
def ServedBy (self : HdfsGateway) {M : Machine Cmd Cmd.Resp (World self.crates VersionedFiles)}
    (L : Labelling M) (h : VersionedFiles) (req : S3Request) (res : Response) : Prop :=
  ∀ input polls object body, req = .getObject input polls → res = .getObject (.ok (object, body)) →
    ∃ path, self.resolvePath input.bucket input.key = .ok path ∧ Served L h path object

/-- So does a GET with its body. -/
theorem ensures_serveGet_served (input : GetObjectInput) (polls : ℕ) :
    (self.serve (.getObject input polls)).Ensures L.validity.rely tid
      (fun v res => self.ServedBy L v.hdfs (.getObject input polls) res) w := by
  apply Prog.ensures_bind
  apply Prog.ensures_bind
  apply (ensures_getObject_served input).mono
  intro v result hserved
  split
  · intro v' _ v'' _ _ _ object body _ hok
    cases Response.getObject.inj hok
  · rename_i p object
    apply Prog.ensures_bind
    apply Prog.Ensures.mono (Validity.ensures_later (keeps_drain Validity.reads_keep _ _ _ _ tid v))
    intro v' out hv' v'' hv'' v3 hv3 _ _ object' body hreq hok
    cases hreq
    cases Response.getObject.inj hok
    obtain ⟨path, hpath, hfor⟩ := hserved p object rfl
    exact ⟨path, hpath, hfor.mono (le_trans hv' (le_trans hv'' hv3))⟩

/-- Every request inserts valid values only, and a successful GET serves what it was opened for. -/
theorem ensures_serve_served (req : S3Request) : (self.serve req).Ensures L.validity.rely tid
    (fun v res => self.ServedBy L v.hdfs req res) w := by
  cases req with
  | getObject input polls => exact ensures_serveGet_served input polls
  | headObject input =>
    have hmeta : ∀ path, L.validity.rely.Keeps (self.fileMeta path) := fun path _ _ =>
      (ensures_fileMeta_named path).mono fun _ _ _ => trivial
    have hhead : L.validity.rely.Keeps (self.serve (.headObject input)) :=
      Rely.keeps_bind (keeps_headObject hmeta) fun _ => Rely.keeps_pure _
    exact (hhead tid w).mono fun _ _ _ _ _ _ _ hreq => by cases hreq
  | listObjectsV2 input fuel =>
    have hfetch : ∀ dir, L.validity.rely.Keeps (self.fetchDir dir) := by
      intro dir
      apply Rely.keeps_bind (keeps_callUpstream Validity.reads_keep _)
      intro reply
      split
      · exact Rely.keeps_pure _
      · simp only []
        split
        · apply Rely.keeps_bind _ fun _ => Rely.keeps_pure _
          exact fun _ _ => Prog.Ensures.mono (Validity.ensures_insert trivial) fun _ _ _ => trivial
        · exact Rely.keeps_pure _
    have hdirs : ∀ dir, L.validity.rely.Keeps (self.listDir dir) := fun dir =>
      keeps_listDir Validity.reads_keep (hfetch dir)
    have hlist : L.validity.rely.Keeps (self.serve (.listObjectsV2 input fuel)) :=
      Rely.keeps_bind (keeps_listObjectsV2 hdirs fuel input) fun _ => Rely.keeps_pure _
    exact (hlist tid w).mono fun _ _ _ _ _ _ _ hreq => by cases hreq

end HdfsGateway

end HdfsS3Gateway
