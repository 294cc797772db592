import HdfsS3Gateway.S3.Versions

/-!
# The version behind an ETag

An external writer replaces files at any time. A cached block map is never older than the identity
it is kept for, so a GET is never served from a version older than the one its ETag names.

It may be served from a younger one: the ETag comes from the stat, the reader from a later opening,
and nothing compares the two but the check that the reader is long enough. Then two responses with
one ETag carry two versions. This does not happen if every opening still finds the identity that it
opens for.
-/

namespace HdfsS3Gateway

open Interaction

namespace VersionedFiles

/-- One file and its versions. -/
def oneHistory (path : Str) (versions : List Version) (hnodup : versions.Nodup) : VersionedFiles where
  versions p := if p = path then versions else []
  nodup p := by
    split
    · exact hnodup
    · exact List.nodup_nil

/-- Open the current version, unless careful and the label is not current. -/
def openFile (careful : Bool) (h : VersionedFiles) (path : Str) (label : FileMeta) :
    Except HdfsError FileReader :=
  match (h.versions path).getLast? with
  | none => .error (.fileNotFound "")
  | some v =>
    if careful = true ∧ v ≠ label.version then .error (.fileNotFound "")
    else .ok ⟨path, v.length.toNat, (h.versions path).length - 1⟩

/-- Replies of this file system, without directories; every byte of version number `i` is `i`. -/
def reply (careful : Bool) (h : VersionedFiles) : (u : Upstream) → u.Reply
  | .getFileInfo path => match (h.versions path).getLast? with
    | some v => .ok (⟨path, v.length, false, v.modificationTime⟩ : FileStatus)
    | none => .error (.fileNotFound "")
  | .read path label => h.openFile careful path label
  | .listStatus _ => .ok ([] : List FileStatus)
  | .pollRange reader _ len position =>
    if position = 0 then some (.ok (List.replicate len (UInt8.ofNat reader.opened))) else none

/-- What is opened is the current version. -/
theorem openFile_eq_ok {careful : Bool} {h : VersionedFiles} {path : Str} {label : FileMeta}
    {reader : FileReader} (hok : h.openFile careful path label = .ok reader) :
    ∃ v, (h.versions path).getLast? = some v ∧ (careful = true → v = label.version) ∧
      reader = ⟨path, v.length.toNat, (h.versions path).length - 1⟩ := by
  unfold openFile at hok
  split at hok
  · contradiction
  · rename_i v hlast
    split at hok
    · contradiction
    · rename_i hcurrent
      obtain rfl := Except.ok.inj hok
      exact ⟨v, hlast, fun hcareful => by simpa [hcareful] using hcurrent, rfl⟩

/-- These replies are possible ones. -/
theorem answers_reply (careful : Bool) (h : VersionedFiles) (u : Upstream) :
    hdfs.answer h u (reply careful h u) := by
  cases u with
  | getFileInfo path =>
    cases hlast : (h.versions path).getLast? with
    | none => simp only [reply, hlast]; trivial
    | some v => simp only [reply, hlast]; exact fun _ => hlast
  | read path label =>
    change Answers h (.read path label) (h.openFile careful path label)
    cases hopen : h.openFile careful path label with
    | error err => trivial
    | ok reader =>
      obtain ⟨v, hlast, -, rfl⟩ := openFile_eq_ok hopen
      refine ⟨rfl, v, hlast, ?_, rfl⟩
      rw [OpenedOn, ← List.getLast?_eq_getElem?, hlast]
  | listStatus | pollRange => trivial

end VersionedFiles

namespace HdfsGateway

variable {self : HdfsGateway} {now : ℕ} {start : VersionedFiles}

/-- Whatever a labelling promises holds in every reachable state: of the cached readers, of those
that were ever reused, and of those behind successful responses. -/
theorem reachable_served {M : Machine Cmd Cmd.Resp (World self.crates VersionedFiles)}
    (L : Labelling M) {s : Pool Cmd Cmd.Resp _ S3Request Response}
    (hs : Pool.Reachable M self.serve (World.init self.crates self.config.cache now start) s) :
    (∀ path cached t, s.world.caches.Holds .blocks path cached t →
      L.Opened s.world.hdfs path (CachedReader.version cached) (CachedReader.reader cached)) ∧
    (∀ e ∈ s.world.log, ∀ path cached, e.Hits .blocks path cached →
      L.Opened s.world.hdfs path (CachedReader.version cached) (CachedReader.reader cached)) ∧
    ∀ tid req res, s.Finished tid req res → self.ServedBy L s.world.hdfs req res := by
  have hinit := L.validity.inv_init self.config.cache now start
  have hinv : L.validity.Inv s.world := hs.inv L.validity.rely
    (fun _ req w res => self.ServedBy L w.hdfs req res) hinit fun _ req _ _ => ensures_serve_served req
  refine ⟨fun path cached t h => hinv.entries .blocks path cached t h,
    fun e he path cached h => hinv.hits e he .blocks path cached h, fun tid req res hfin => ?_⟩
  exact hs.post L.validity.rely (fun _ req w res => self.ServedBy L w.hdfs req res) hinit
    (fun _ req _ _ => ensures_serve_served req) hfin

/-! ## A replacement between the stat and the opening -/

/-- The first version of a file of three bytes at `/f`, and the one that replaces it. -/
def replaced : List Version := [⟨3, 5⟩, ⟨3, 9⟩]

/-- What a GET of the whole file answers when it stats the first version and opens this one. -/
def fileObject (opened : ℕ) : GetObject where
  output := ⟨"bytes", 3, none, ⟨0, 5000000⟩, .strong "hdfs-3-5", "application/octet-stream"⟩
  reader := ⟨[0x2F, 0x66], 3, opened⟩
  windowStart := 0
  remaining := 3

/-- The GET of the whole file. -/
def wholeFile : GetObjectInput := { bucket := [0x62], key := [0x66] }

/-- The two versions of `/f`, without and with the replacement. -/
def fileBefore : VersionedFiles := .oneHistory [0x2F, 0x66] (replaced.take 1) (by decide)
def fileAfter : VersionedFiles := .oneHistory [0x2F, 0x66] replaced (by decide)

/-- A GET of the whole file is answered from the first version. When its block map has expired, a
second one stats the first version, the file is replaced, and it opens the other version. -/
theorem exists_mixed_run :
    ∃ s : Pool Cmd Cmd.Resp (World reference.crates VersionedFiles) S3Request Response,
      reference.Reachable VersionedFiles.hdfs 0 fileBefore s ∧
      s.Finished 0 (.getObject wholeFile 2)
        (.getObject (.ok (fileObject 0, ⟨[.ok [0, 0, 0]], true⟩))) ∧
      s.Finished 1 (.getObject wholeFile 2)
        (.getObject (.ok (fileObject 1, ⟨[.ok [1, 1, 1]], true⟩))) := by
  have hle : fileBefore ≤ fileAfter := by
    intro p
    change (if p = _ then _ else _) <+: (if p = _ then _ else _)
    split
    · exact List.take_prefix 1 replaced
    · exact List.prefix_rfl
  have hreply := VersionedFiles.answers_reply false
  have hinit : reference.Reachable VersionedFiles.hdfs 0 fileBefore _ := .init
  have hfirst := ((hinit.start (.getObject wholeFile 2)).moves _ hreply 0 8).wait 11000000000
  have hstat := (hfirst.start (.getObject wholeFile 2)).moves _ hreply 1 4
  have hreplaced := hstat.change (d := fileAfter) (by
    rw [hdfs_moves, Pool.start, hdfs_moves]
    exact hle)
  have hsecond := hreplaced.moves _ hreply 1 4
  exact ⟨_, hsecond, Pool.finished_of_result (by decide +kernel),
    Pool.finished_of_result (by decide +kernel)⟩

/-! ## Block maps are never older than their label -/

/-- In every run, an identity was once current, and an opening for it opens no older version. -/
def anyLabelling (crates : Crates) : Labelling (gatewayMachine crates VersionedFiles.hdfs) where
  Named h path v := v ∈ h.versions path
  Opened := VersionedFiles.OpenedSince
  named_mono hle h := (hle _).subset h
  opened_mono hle h := h.mono hle
  exec h := h
  outside h := h
  stat h := List.mem_of_getLast? h
  read hexec hnamed := by
    obtain ⟨-, current, hlast, hopened, -⟩ := hexec.1
    exact VersionedFiles.openedSince_of_current hnamed hlast hopened

/-- A cached block map was opened on the version it is kept for or a later one, so was every block
map that was ever reused, and so was the reader of every successful GET, for the version that its
ETag names. -/
theorem blockMap_never_older {s : Pool Cmd Cmd.Resp _ S3Request Response}
    (hs : self.Reachable VersionedFiles.hdfs now start s) :
    (∀ path cached t, s.world.caches.Holds .blocks path cached t →
      s.world.hdfs.OpenedSince path (CachedReader.version cached) (CachedReader.reader cached)) ∧
    (∀ e ∈ s.world.log, ∀ path cached, e.Hits .blocks path cached →
      s.world.hdfs.OpenedSince path (CachedReader.version cached) (CachedReader.reader cached)) ∧
    ∀ tid input polls object body,
      s.Finished tid (.getObject input polls) (.getObject (.ok (object, body))) →
      ∃ path v, self.resolvePath input.bucket input.key = .ok path ∧
        object.output.eTag = .strong (fallbackEtag v.length v.modificationTime) ∧
        s.world.hdfs.OpenedSince path v object.reader := by
  obtain ⟨hentries, hhits, hserved⟩ := reachable_served (anyLabelling self.crates) hs
  refine ⟨hentries, hhits, fun tid input polls object body hfin => ?_⟩
  obtain ⟨path, hpath, v, hetag, hopened⟩ := hserved tid _ _ hfin input polls object body rfl rfl
  exact ⟨path, v, hpath, hetag, hopened⟩

/-- The second GET of the mixed run has the ETag of the first version and a reader of a later
one. -/
theorem blockMap_never_older_replaced :
    ∃ h : VersionedFiles, ∃ path v, (fileObject 1).output.eTag =
      .strong (fallbackEtag v.length v.modificationTime) ∧ h.OpenedSince path v (fileObject 1).reader := by
  obtain ⟨s, hs, -, hfin⟩ := exists_mixed_run
  obtain ⟨path, v, -, hetag, hopened⟩ := (blockMap_never_older hs).2.2 1 _ _ _ _ hfin
  exact ⟨s.world.hdfs, path, v, hetag, hopened⟩

/-! ## Equal ETags -/

/-- An opening for an identity happens while the path still has it. -/
def OpensCurrent {crates : Crates} (w : World crates VersionedFiles) : (c : Cmd) → c.Resp → Prop
  | .upstream (.read path label), .ok _ =>
    (w.hdfs.versions path).getLast? = some (FileMeta.version label)
  | _, _ => True

/-- The runs in which every opening still finds the identity that it opens for. -/
def unreplacedMachine (crates : Crates) : Machine Cmd Cmd.Resp (World crates VersionedFiles) :=
  (gatewayMachine crates VersionedFiles.hdfs).restrict OpensCurrent

/-- In these runs a reader is opened on the version it is opened for. -/
def exactLabelling (crates : Crates) : Labelling (unreplacedMachine crates) where
  Named _ _ _ := True
  Opened := VersionedFiles.OpenedOn
  named_mono _ _ := trivial
  opened_mono hle h := VersionedFiles.getElem?_mono hle h
  exec h := h.1
  outside h := h
  stat _ := trivial
  read hexec _ := by
    obtain ⟨⟨⟨-, current, hlast, hopened, -⟩, -⟩, hallowed⟩ := hexec
    obtain rfl := Option.some.inj (hlast.symm.trans hallowed)
    exact hopened

/-- The path of a key does not depend on the request. -/
theorem resolvePath_key {bucket bucket' key path path' : Str}
    (h : self.resolvePath bucket key = .ok path) (h' : self.resolvePath bucket' key = .ok path') :
    path = path' := by
  unfold resolvePath at h h'
  split at h
  · contradiction
  · split at h'
    · contradiction
    · exact Except.ok.inj (h.symm.trans h')

/-- If every opening still finds the identity that it opens for, two successful GETs of one key with
equal ETags were served from readers of the same version. -/
theorem equal_etags_same_version {s : Pool Cmd Cmd.Resp _ S3Request Response}
    (hs : Pool.Reachable (unreplacedMachine self.crates) self.serve
      (World.init self.crates self.config.cache now start) s)
    {tid tid' polls polls' : ℕ} {input input' : GetObjectInput} {object object' : GetObject}
    {body body' : Body}
    (hfin : s.Finished tid (.getObject input polls) (.getObject (.ok (object, body))))
    (hfin' : s.Finished tid' (.getObject input' polls') (.getObject (.ok (object', body'))))
    (hkey : input.key = input'.key) (hetag : object.output.eTag = object'.output.eTag) :
    object.reader.opened = object'.reader.opened := by
  obtain ⟨-, -, hserved⟩ := reachable_served (exactLabelling self.crates) hs
  obtain ⟨path, hpath, v, hv, hopened⟩ := hserved tid _ _ hfin input polls object body rfl rfl
  obtain ⟨path', hpath', v', hv', hopened'⟩ :=
    hserved tid' _ _ hfin' input' polls' object' body' rfl rfl
  rw [hkey] at hpath
  obtain rfl := resolvePath_key hpath hpath'
  rw [hv, hv'] at hetag
  obtain ⟨hlength, htime⟩ := fallbackEtag_inj (ETag.strong.inj hetag)
  obtain rfl : v = v' := congrArg₂ Version.mk hlength htime
  exact VersionedFiles.OpenedOn.unique hopened hopened'

/-- The commands of careful runs are those of runs without a replacement under an opening. -/
theorem exec_careful {crates : Crates} (tid : ℕ) (w : World crates VersionedFiles) (c : Cmd) :
    (unreplacedMachine crates).exec tid w c (w.step (VersionedFiles.reply true) tid c).1
      (w.step (VersionedFiles.reply true) tid c).2 := by
  refine ⟨World.exec_step (VersionedFiles.answers_reply true) w c, ?_⟩
  cases c with
  | upstream u =>
    cases u with
    | read path label =>
      change OpensCurrent w (.upstream (.read path label)) (w.hdfs.openFile true path label)
      cases hopen : w.hdfs.openFile true path label with
      | error err => trivial
      | ok reader =>
        obtain ⟨v, hlast, hcurrent, -⟩ := VersionedFiles.openFile_eq_ok hopen
        exact hlast.trans (congrArg some (hcurrent rfl))
    | _ => trivial
  | _ => trivial

/-- Two GETs of the whole file, the second from the cached reader, while nothing is replaced. -/
theorem exists_cached_run :
    ∃ s : Pool Cmd Cmd.Resp (World reference.crates VersionedFiles) S3Request Response,
      Pool.Reachable (unreplacedMachine reference.crates) reference.serve
        (World.init reference.crates reference.config.cache 0 fileBefore) s ∧
      s.Finished 0 (.getObject wholeFile 2)
        (.getObject (.ok (fileObject 0, ⟨[.ok [0, 0, 0]], true⟩))) ∧
      s.Finished 1 (.getObject wholeFile 2)
        (.getObject (.ok (fileObject 0, ⟨[.ok [0, 0, 0]], true⟩))) := by
  have hinit : Pool.Reachable (unreplacedMachine reference.crates) reference.serve
    (World.init reference.crates reference.config.cache 0 fileBefore) _ := .init
  have hfirst := Pool.Reachable.moves exec_careful 0 8
    (hinit.step (.start _ _ (.getObject wholeFile 2)))
  have hsecond := Pool.Reachable.moves exec_careful 1 3
    (hfirst.step (.start _ _ (.getObject wholeFile 2)))
  exact ⟨_, hsecond, Pool.finished_of_result (by decide +kernel),
    Pool.finished_of_result (by decide +kernel)⟩

/-- The two GETs of this run have equal ETags and readers of one version. -/
theorem equal_etags_same_version_cached :
    ∃ a b : GetObject, a.output.eTag = b.output.eTag ∧ a.reader.opened = b.reader.opened := by
  obtain ⟨s, hs, hfin, hfin'⟩ := exists_cached_run
  exact ⟨_, _, rfl, equal_etags_same_version hs hfin hfin' rfl rfl⟩

/-- A GET that opens its reader after the file was replaced answers with the ETag of the version
that it saw and the bytes of the other, although an earlier response with that ETag had the bytes of
the first. -/
theorem equal_etags_mixed_versions :
    ∃ s : Pool Cmd Cmd.Resp (World reference.crates VersionedFiles) S3Request Response,
      reference.Reachable VersionedFiles.hdfs 0 fileBefore s ∧
      s.Finished 0 (.getObject wholeFile 2)
        (.getObject (.ok (fileObject 0, ⟨[.ok [0, 0, 0]], true⟩))) ∧
      s.Finished 1 (.getObject wholeFile 2)
        (.getObject (.ok (fileObject 1, ⟨[.ok [1, 1, 1]], true⟩))) ∧
      (fileObject 0).output.eTag = (fileObject 1).output.eTag ∧
      (fileObject 0).reader.opened ≠ (fileObject 1).reader.opened := by
  obtain ⟨s, hs, hfirst, hsecond⟩ := exists_mixed_run
  exact ⟨s, hs, hfirst, hsecond, rfl, by decide⟩

end HdfsGateway

end HdfsS3Gateway
