import HdfsS3Gateway.S3.ObjectStore
import HdfsS3Gateway.S3.UpstreamErrors

/-!
# HEAD and GET over a tree with contents

A readable tree whose files have contents holds an object store: a key finds the file at its path, and
a file below the root is an object under its own key. With every lookup missed, HEAD and GET answer as
this store does, for every condition and every range.
-/

namespace HdfsS3Gateway

open Interaction

/-! ## Trees with contents -/

/-- A readable tree whose files can be opened and read: HDFS answers every call about a path as the
tree says, in chunks of any sizes. -/
structure StoredTree extends ReadableTree where
  content : (x : Inode) → { bytes : List UInt8 // bytes.length = x.length.toNat }
  stat_node : ∀ x ∈ tree.nodes, hdfs.stat (absPath x.segs) = .ok x.status
  stat_top : ∃ status, hdfs.stat (absPath []) = .ok status ∧ status.isdir = true
  stat_missing : ∀ p, (∀ s ∈ p, Plain s) → p ≠ [] → (∀ x ∈ tree.nodes, x.segs ≠ p) →
    ∃ path, hdfs.stat (absPath p) = .error (.fileNotFound path)
  opens : ∀ x ∈ tree.nodes, x.isdir = false → ∃ reader, hdfs.openFile (absPath x.segs) = .ok reader ∧
    reader.fileLength = x.length.toNat ∧ ∀ start len, start + len ≤ x.length.toNat →
      ∃ count, BytesStream.upstreamBytes (hdfs.chunk reader start len) count 0 =
        some (((content x).val.drop start).take len)
  fits : ∀ x ∈ tree.nodes, x.length.toNat ≤ gateway.crates.usizeMax

namespace StoredTree

variable (w : StoredTree)

/-- A file as an object. -/
def stored (x : Inode) : StoredObject where
  size := x.length
  modified := x.modificationTime
  content := (w.content x).val
  whole := (w.content x).property

/-- The object that a key finds: the file at its path. -/
def find (key : Str) : Option StoredObject :=
  match w.gateway.mapper.keyToHdfsPath key with
  | none => none
  | some path =>
    (w.tree.nodes.find? fun x => !x.isdir && absPath x.segs = path).map w.stored

variable {w} {key : Str} {o : StoredObject}

/-- A node that alone satisfies a test is found by it. -/
theorem find?_eq_of_unique {p : Inode → Bool} {xs : List Inode} {x : Inode} (hx : x ∈ xs)
    (hp : p x = true) (hunique : ∀ y ∈ xs, p y = true → y = x) : xs.find? p = some x := by
  cases hfound : xs.find? p with
  | none => exact absurd hp (List.find?_eq_none.mp hfound x hx)
  | some y => rw [hunique y (List.mem_of_find?_eq_some hfound) (List.find?_some hfound)]

/-- A path of a tree names one node. -/
theorem eq_of_absPath {t : Namespace} {x y : Inode} (hx : x ∈ t.nodes) (hy : y ∈ t.nodes)
    (h : absPath y.segs = absPath x.segs) : y = x :=
  Namespace.eq_of_segs hy hx (absPath_injective (t.plain y hy) (t.plain x hx) h)

/-- A key finds the file at its path. -/
theorem find_eq_some : w.find key = some o ↔ ∃ x ∈ w.tree.nodes, x.isdir = false ∧
    w.gateway.mapper.keyToHdfsPath key = some (absPath x.segs) ∧ w.stored x = o := by
  unfold find
  split
  · rename_i hpath
    simp [hpath]
  · rename_i path hpath
    constructor
    · intro h
      obtain ⟨x, hx, rfl⟩ := Option.map_eq_some_iff.mp h
      have hfound := List.find?_some hx
      simp only [Bool.and_eq_true, Bool.not_eq_true', decide_eq_true_eq] at hfound
      exact ⟨x, List.mem_of_find?_eq_some hx, hfound.1, by rw [hpath, hfound.2], rfl⟩
    · rintro ⟨x, hx, hfile, hsegs, rfl⟩
      obtain rfl := Option.some.inj (hpath.symm.trans hsegs)
      have hfound := find?_eq_of_unique (p := fun y => !y.isdir && absPath y.segs = absPath x.segs) hx
        (by simp [hfile]) fun y hy hp => eq_of_absPath hx hy (by simpa using (Bool.and_eq_true_iff.mp hp).2)
      rw [hfound]
      rfl

/-- The object of a listing is what its key finds, and a canonical key finds nothing else. -/
theorem mem_objects (e : ListEntry) : e ∈ w.objects ↔ CanonicalKey e.key ∧
    ∃ o, w.find e.key = some o ∧ o.size = e.size ∧ o.modified = e.modificationTime := by
  rw [ReadableTree.objects, Inode.mem_objects]
  constructor
  · rintro ⟨x, hx, hfile, rfl⟩
    obtain ⟨hnode, hplain, hroot, hne⟩ := Namespace.mem_exposed.mp hx
    have hpath := w.gateway.mapper.keyToHdfsPath_keyOf hplain hroot hne
    exact ⟨w.gateway.mapper.canonicalKey_keyOf hplain hroot hne, _,
      find_eq_some.mpr ⟨x, hnode, hfile, hpath, rfl⟩, rfl, rfl⟩
  · rintro ⟨⟨ks, hks, hplain, hkey⟩, o, hfind, hsize, hmodified⟩
    obtain ⟨x, hx, hfile, hpath, rfl⟩ := find_eq_some.mp hfind
    rw [hkey, w.gateway.mapper.keyToHdfsPath_joinSlash hplain hks] at hpath
    have hbelow : ∀ s ∈ w.gateway.mapper.rootSegments ++ ks, Plain s := fun s hs =>
      (List.mem_append.mp hs).elim (w.gateway.mapper.rootSegments_plain s) (hplain s)
    have hsegs := absPath_injective hbelow (w.tree.plain x hx) (Option.some.inj hpath)
    refine ⟨x, Namespace.mem_exposed.mpr ⟨hx, w.tree.plain x hx, ?_, ?_⟩, hfile, ?_⟩
    · rw [← hsegs]
      exact List.prefix_append _ _
    · rw [← hsegs]
      simpa using hks
    · obtain ⟨key, size, modified⟩ := e
      obtain rfl : x.length = size := hsize
      obtain rfl : x.modificationTime = modified := hmodified
      rw [Inode.object, ← hsegs, PathMapper.keyOf_append]
      exact congrArg (ListEntry.mk · _ _) hkey.symm

variable (w) in
/-- The store of the files of a tree. -/
def store : ObjectStore where
  bucket := w.gateway.mapper.bucket
  objects := w.objects
  dirs := w.dirKeys
  listable pre := w.gateway.mapper.listStart pre ≠ none
  find := w.find
  mem_objects := mem_objects

/-! ## HEAD -/

/-- What the metadata of the path of a key is: that of the file it finds, or none of a file. -/
theorem eval_fileMeta {path : Str} (hpath : w.gateway.mapper.keyToHdfsPath key = some path) :
    (∃ x ∈ w.tree.nodes, x.isdir = false ∧ path = absPath x.segs ∧ w.find key = some (w.stored x) ∧
        (w.gateway.fileMeta path).eval w.hdfs.missing = .ok ⟨x.length, false, x.modificationTime⟩) ∨
      w.find key = none ∧
        ((w.gateway.fileMeta path).eval w.hdfs.missing = .error { code := .noSuchKey } ∨
          ∃ status, (w.gateway.fileMeta path).eval w.hdfs.missing = .ok status ∧
            status.isdir = true) := by
  obtain ⟨segs, hplain, rfl, -⟩ := w.gateway.mapper.keyToHdfsPath_eq_some hpath
  have hstat := w.gateway.eval_statFile w.hdfs (absPath segs)
  have hfinds : ∀ x ∈ w.tree.nodes, x.isdir = false → absPath segs = absPath x.segs → x.segs = segs :=
    fun x hx _ h => absPath_injective (w.tree.plain x hx) hplain h.symm
  by_cases hnode : ∃ x ∈ w.tree.nodes, x.segs = segs
  · obtain ⟨x, hx, rfl⟩ := hnode
    rw [w.stat_node x hx] at hstat
    cases hdir : x.isdir with
    | false =>
      left
      refine ⟨x, hx, hdir, rfl, find_eq_some.mpr ⟨x, hx, hdir, hpath, rfl⟩, hstat.trans ?_⟩
      rw [Inode.status, hdir]
    | true =>
      refine .inr ⟨?_, .inr ⟨_, hstat, hdir⟩⟩
      by_contra hfound
      obtain ⟨o, ho⟩ := Option.ne_none_iff_exists'.mp hfound
      obtain ⟨y, hy, hfile, hsame, -⟩ := find_eq_some.mp ho
      have hxy := hfinds y hy hfile (Option.some.inj (hpath.symm.trans hsame))
      rw [Namespace.eq_of_segs hy hx hxy, hdir] at hfile
      contradiction
  · right
    constructor
    · by_contra hfound
      obtain ⟨o, ho⟩ := Option.ne_none_iff_exists'.mp hfound
      obtain ⟨y, hy, hfile, hsame, -⟩ := find_eq_some.mp ho
      exact hnode ⟨y, hy, hfinds y hy hfile (Option.some.inj (hpath.symm.trans hsame))⟩
    · by_cases htop : segs = []
      · subst htop
        obtain ⟨status, hok, hdir⟩ := w.stat_top
        rw [hok] at hstat
        exact .inr ⟨_, hstat, hdir⟩
      · obtain ⟨path, hmissing⟩ := w.stat_missing segs hplain htop fun x hx h => hnode ⟨x, hx, h⟩
        rw [hmissing] at hstat
        exact .inl hstat

/-- The conditional headers, as all four checks come out. -/
theorem checkConditions_eq (self : HdfsGateway) (c : Conditions) (eTag : ETag) (t : Timestamp) :
    self.checkConditions c eTag t =
      if c.Blocked eTag t then .error { code := .preconditionFailed }
      else if c.Stale eTag t then .error { code := .notModified }
      else .ok () := by
  rw [HdfsGateway.checkConditions_eq, HdfsGateway.strongMatch_eq, HdfsGateway.weakMatch_eq]
  rfl

/-- How a request for a key starts: it is refused before any metadata, it finds no file, or it finds
the file of the object that the store selects, unless the conditions refuse it. -/
inductive Starts (w : StoredTree) (bucket key : Str) : Prop
  | refused (e : S3Error) (hpath : w.gateway.resolvePath bucket key = .error e)
      (hselect : ∀ c, w.store.select bucket key c = .error e)
  | missing (path : Str) (hpath : w.gateway.resolvePath bucket key = .ok path)
      (hstatus : (w.gateway.fileMeta path).eval w.hdfs.missing = .error { code := .noSuchKey })
      (hselect : ∀ c, w.store.select bucket key c = .error { code := .noSuchKey })
  | dir (path : Str) (status : FileMeta) (hpath : w.gateway.resolvePath bucket key = .ok path)
      (hstatus : (w.gateway.fileMeta path).eval w.hdfs.missing = .ok status)
      (hdir : status.isdir = true)
      (hselect : ∀ c, w.store.select bucket key c = .error { code := .noSuchKey })
  | file (x : Inode) (hx : x ∈ w.tree.nodes) (hfile : x.isdir = false)
      (hpath : w.gateway.resolvePath bucket key = .ok (absPath x.segs))
      (hstatus : (w.gateway.fileMeta (absPath x.segs)).eval w.hdfs.missing =
        .ok ⟨x.length, false, x.modificationTime⟩)
      (hselect : ∀ c, w.store.select bucket key c = (w.gateway.checkConditions c (w.stored x).eTag
        (w.stored x).lastModified).map fun _ => w.stored x)

variable (w) in
/-- Every request for a key starts in one of these ways. -/
theorem starts (bucket key : Str) : w.Starts bucket key := by
  by_cases hbucket : bucket = w.store.bucket
  · have hmissing (hfind : w.find key = none) :
        ∀ c, w.store.select bucket key c = .error { code := .noSuchKey } := by
      intro c
      rw [ObjectStore.select, if_neg (not_not_intro hbucket), show w.store.find key = none from hfind]
    have hfound {o : StoredObject} (hfind : w.find key = some o) : ∀ c, w.store.select bucket key c =
        (w.gateway.checkConditions c o.eTag o.lastModified).map fun _ => o := by
      intro c
      rw [ObjectStore.select, if_neg (not_not_intro hbucket), show w.store.find key = some o from hfind]
      simp only [checkConditions_eq]
      split_ifs <;> rfl
    have hresolve : w.gateway.resolvePath bucket key = _ := if_neg (not_not_intro hbucket)
    cases hpath : w.gateway.mapper.keyToHdfsPath key with
    | none =>
      rw [hpath] at hresolve
      exact .refused _ hresolve (hmissing (by rw [find, hpath]))
    | some path =>
      rw [hpath] at hresolve
      rcases eval_fileMeta hpath with ⟨x, hx, hfile, rfl, hfind, hstatus⟩ | ⟨hfind, hstatus⟩
      · exact .file x hx hfile hresolve hstatus (hfound hfind)
      · rcases hstatus with hstatus | ⟨status, hstatus, hdir⟩
        · exact .missing path hresolve hstatus (hmissing hfind)
        · exact .dir path status hresolve hstatus hdir (hmissing hfind)
  · apply Starts.refused { code := .noSuchBucket }
    · exact if_pos hbucket
    · exact fun c => if_pos hbucket

/-- A HEAD is answered as the store answers it. -/
theorem head_answer (input : HeadObjectInput) :
    w.store.HeadAnswer input ((w.gateway.headObject input).eval w.hdfs.missing) := by
  unfold ObjectStore.HeadAnswer HdfsGateway.headObject
  cases w.starts input.bucket input.key with
  | refused e hpath hselect =>
    rw [hpath, hselect]
    rfl
  | missing path hpath hstatus hselect =>
    rw [hpath, hselect]
    simp only [Prog.eval_bind, hstatus]
    rfl
  | dir path status hpath hstatus hdir hselect =>
    rw [hpath, hselect]
    simp only [Prog.eval_bind, hstatus]
    exact if_pos hdir
  | file x hx hfile hpath hstatus hselect =>
    rw [hpath, hselect]
    simp only [Prog.eval_bind, hstatus]
    unfold HdfsGateway.headResponse
    cases hcheck : w.gateway.checkConditions input.conditions (w.stored x).eTag
        (w.stored x).lastModified with
    | error e => exact congrArg (· >>= _) hcheck
    | ok _ => exact ⟨_, congrArg (· >>= _) hcheck, rfl, rfl, rfl⟩

/-! ## GET -/

/-- The window of a GET is the requested bytes, if there are any. -/
theorem requested_window {x : Inode} {range : Option Range} {v : Window}
    (h : (resolveWindow x.length range).value = .ok v) :
    (w.stored x).requested range
      (((w.content x).val.drop v.start.toNat).take (v.endExclusive.toNat - v.start.toNat)) := by
  obtain ⟨hle, hlen, -, hwhole, hrange⟩ := resolveWindow_eq_ok h
  have hcontent := (w.content x).property
  cases range with
  | none =>
    obtain ⟨hstart, hend, -⟩ := hwhole rfl
    rw [hstart, hend, List.drop_zero]
    exact List.take_of_length_le (by omega)
  | some r =>
    obtain ⟨hresolve, -⟩ := hrange r rfl
    obtain ⟨hlt, -, hmem⟩ := resolveRange_eq_some hresolve
    have hlt := UInt64.lt_iff_toNat_lt.mp hlt
    refine ⟨?_, v.start.toNat, v.endExclusive.toNat, List.drop_take.symm, hmem⟩
    apply List.ne_nil_of_length_pos
    rw [List.length_take, List.length_drop]
    omega

/-- A range that does not resolve asks for no byte of the object. -/
theorem not_requested {x : Inode} {range : Option Range} {e : S3Error}
    (h : (resolveWindow x.length range).value = .error e) (bytes : List UInt8) :
    ¬ (w.stored x).requested range bytes := by
  cases range with
  | none => contradiction
  | some r =>
    rintro ⟨hne, first, last, hbytes, hmem⟩
    have hnone : ¬ (resolveRange x.length (Range.toByteRange r)).value.isSome := by
      intro hsome
      obtain ⟨⟨s, e⟩, hse⟩ := Option.isSome_iff_exists.mp hsome
      unfold resolveWindow at h
      simp only [Overflow.Tracked.value_bind, hse] at h
      contradiction
    have hlen := List.length_pos_of_ne_nil hne
    rw [hbytes, List.length_drop, List.length_take] at hlen
    exact hnone ((resolveRange_isSome_iff _ _).mpr
      ⟨first, (hmem first).mp ⟨Nat.le_refl _, by omega⟩⟩)

/-- What is prepared for a GET of a file: its conditions and its window may refuse it. -/
theorem prepare_file {x : Inode} (hx : x ∈ w.tree.nodes) (input : GetObjectInput) :
    (∀ e, w.gateway.checkConditions input.conditions (w.stored x).eTag (w.stored x).lastModified =
        .error e → w.gateway.prepare input (absPath x.segs) ⟨x.length, false, x.modificationTime⟩ =
          .error e) ∧
      (w.gateway.checkConditions input.conditions (w.stored x).eTag (w.stored x).lastModified =
          .ok () →
        (∀ e, (resolveWindow x.length input.range).value = .error e →
          w.gateway.prepare input (absPath x.segs) ⟨x.length, false, x.modificationTime⟩ = .error e) ∧
        ∀ v, (resolveWindow x.length input.range).value = .ok v →
          ∃ p, w.gateway.prepare input (absPath x.segs) ⟨x.length, false, x.modificationTime⟩ = .ok p ∧
            p.windowStart = v.start.toNat ∧ p.windowEnd = v.endExclusive.toNat ∧
            p.output.contentLength = v.contentLength.toInt64 ∧ p.output.eTag = (w.stored x).eTag ∧
            p.output.lastModified = (w.stored x).lastModified) := by
  have hfile : (⟨x.length, false, x.modificationTime⟩ : FileMeta).isdir = false := rfl
  obtain ⟨hrefused, hadmitted⟩ := w.gateway.prepare_of_file (absPath x.segs) input hfile
  refine ⟨hrefused, fun hok => ⟨fun e h => ?_, fun v h => ?_⟩⟩
  · unfold HdfsGateway.prepare
    simp only [Bool.false_eq_true, if_false]
    exact HdfsGateway.except_bind_eq_error.mpr
      (.inr ⟨(), hok, HdfsGateway.except_bind_eq_error.mpr (.inl h)⟩)
  · obtain ⟨hle, hlen, -⟩ := resolveWindow_eq_ok h
    have hfits := w.fits x hx
    have hstart : w.gateway.usizeTryFrom v.start = some v.start.toNat :=
      if_pos (hle.trans (hlen.trans hfits))
    have hend : w.gateway.usizeTryFrom v.endExclusive = some v.endExclusive.toNat :=
      if_pos (hlen.trans hfits)
    cases hp : w.gateway.prepare input (absPath x.segs) ⟨x.length, false, x.modificationTime⟩ with
    | error e =>
      -- nothing that a GET checks is left to fail
      exfalso
      unfold HdfsGateway.prepare at hp
      simp only [Bool.false_eq_true, if_false] at hp
      rcases HdfsGateway.except_bind_eq_error.mp hp with hcond | ⟨-, -, hp⟩
      · exact absurd (hcond.symm.trans hok) (by simp)
      rcases HdfsGateway.except_bind_eq_error.mp hp with hwindow | ⟨v', hv', hp⟩
      · exact absurd (hwindow.symm.trans h) (by simp)
      · obtain rfl := Except.ok.inj (h.symm.trans hv')
        rw [hstart, hend] at hp
        contradiction
    | ok p =>
      obtain ⟨v', hv', hwstart, hwend, -, hlength, -, heTag⟩ := w.gateway.prepare_eq_ok hp
      obtain rfl := Except.ok.inj (h.symm.trans hv')
      exact ⟨p, rfl, hwstart, hwend, hlength, heTag, (Prod.mk.inj ((hadmitted hok).2 p hp)).2⟩

/-- A file opens for the window of a GET. -/
theorem openObject_file {x : Inode} (hx : x ∈ w.tree.nodes) (hfile : x.isdir = false)
    (status : FileMeta) {v : Window} {range : Option Range}
    (hwindow : (resolveWindow x.length range).value = .ok v) {p : Prepared}
    (hstart : p.windowStart = v.start.toNat) (hend : p.windowEnd = v.endExclusive.toNat) :
    ∃ reader, (w.gateway.openObject (absPath x.segs) status p).eval w.hdfs.missing =
        .ok (absPath x.segs, ⟨p.output, reader, p.windowStart, p.windowEnd - p.windowStart⟩) ∧
      ∃ count, BytesStream.upstreamBytes
        (w.hdfs.chunk reader p.windowStart (p.windowEnd - p.windowStart)) count 0 =
          some (((w.content x).val.drop p.windowStart).take (p.windowEnd - p.windowStart)) := by
  obtain ⟨hle, hlen, -⟩ := resolveWindow_eq_ok hwindow
  obtain ⟨reader, hopen, hreader, hchunks⟩ := w.opens x hx hfile
  have hread : (w.gateway.openReader (absPath x.segs) status).eval w.hdfs.missing = .ok reader := by
    have heval := w.gateway.eval_readFile w.hdfs (absPath x.segs) status
    rw [hopen] at heval
    exact heval
  have hfits := w.fits x hx
  refine ⟨reader, ?_, hchunks _ _ (by omega)⟩
  unfold HdfsGateway.openObject
  rw [Prog.eval_bind, hread]
  simp only []
  rw [if_neg (by omega), Overflow.value_subUsize (by omega) (by omega)]
  rfl

/-- A GET is answered as the store answers it. -/
theorem get_answer (input : GetObjectInput) (polls : ℕ) :
    w.store.GetAnswer input ((w.gateway.serveGet input polls).eval w.hdfs.missing) := by
  unfold ObjectStore.GetAnswer HdfsGateway.serveGet
  rw [Prog.eval_bind]
  unfold HdfsGateway.getObject
  cases w.starts input.bucket input.key with
  | refused e hpath hselect =>
    rw [hpath, hselect]
    rfl
  | missing path hpath hstatus hselect =>
    rw [hpath, hselect]
    simp only [Prog.eval_bind, hstatus]
    rfl
  | dir path status hpath hstatus hdir hselect =>
    have hprepare : w.gateway.prepare input path status = .error { code := .noSuchKey } := if_pos hdir
    rw [hpath, hselect]
    simp only [Prog.eval_bind, hstatus, hprepare]
    rfl
  | file x hx hfile hpath hstatus hselect =>
    rw [hpath, hselect]
    simp only [Prog.eval_bind, hstatus]
    obtain ⟨hrefused, hadmitted⟩ := prepare_file hx input
    cases hcheck : w.gateway.checkConditions input.conditions (w.stored x).eTag
        (w.stored x).lastModified with
    | error e =>
      rw [hrefused e hcheck]
      rfl
    | ok _ =>
      obtain ⟨hinvalid, hprepared⟩ := hadmitted hcheck
      cases hwindow : (resolveWindow x.length input.range).value with
      | error e =>
        rw [hinvalid e hwindow]
        exact .inl ⟨congrArg Except.error (HdfsGateway.resolveWindow_error hwindow),
          not_requested hwindow⟩
      | ok v =>
        obtain ⟨p, hp, hstart, hend, hlength, heTag, hmodified⟩ := hprepared v hwindow
        obtain ⟨reader, hopen, count, hchunks⟩ :=
          openObject_file hx hfile ⟨x.length, false, x.modificationTime⟩ hwindow hstart hend
        obtain ⟨hle, hlen, hclen, -⟩ := resolveWindow_eq_ok hwindow
        have hcontent := (w.content x).property
        have hrequested := requested_window (w := w) hwindow
        rw [← hstart, ← hend] at hrequested
        have hsize : (((w.content x).val.drop p.windowStart).take
            (p.windowEnd - p.windowStart)).length = p.windowEnd - p.windowStart := by
          rw [List.length_take, List.length_drop]
          omega
        rw [hp]
        simp only [hopen, Prog.eval_bind]
        refine .inr ⟨_, _, _, hrequested, rfl, ?_, heTag, hmodified, ?_⟩
        · rw [hsize, hlength, hclen, hstart, hend]
        · have hbody := BytesStream.deliver_enough (s := .new (p.windowEnd - p.windowStart)) hchunks
            hsize.ge polls
          have hall := List.take_of_length_le hsize.le
          rw [BytesStream.new, hall] at hbody
          rw [BytesStream.eval_drain]
          simp only [HdfsGateway.eval_pollBody]
          exact hbody

/-! ## A tree in memory -/

/-- An HDFS that holds a tree in memory and gives every window in one chunk. -/
def inMemory (t : Namespace) (content : (x : Inode) → { bytes : List UInt8 // bytes.length = x.length.toNat }) :
    StaticHdfs where
  stat path :=
    if path = absPath [] then .ok ⟨path, 0, true, 0⟩
    else match t.nodes.find? fun x => absPath x.segs = path with
      | some x => .ok x.status
      | none => .error (.fileNotFound "")
  openFile path :=
    match t.nodes.find? fun x => absPath x.segs = path with
    | some x => .ok ⟨path, x.length.toNat, 0⟩
    | none => .error (.fileNotFound "")
  list := t.reply fun _ => none
  chunk reader start len position :=
    match t.nodes.find? fun x => absPath x.segs = reader.path with
    | some x => if position = 0 then some (.ok (((content x).val.drop start).take len)) else none
    | none => none

/-- Every tree of files that fit the platform can be served. -/
def ofContent (gateway : HdfsGateway) (t : Namespace)
    (content : (x : Inode) → { bytes : List UInt8 // bytes.length = x.length.toNat })
    (fits : ∀ x ∈ t.nodes, x.length.toNat ≤ gateway.crates.usizeMax) : StoredTree where
  gateway := gateway
  hdfs := inMemory t content
  tree := t
  lists := t.lists_reply _
  content := content
  stat_node x hx := by
    have hne : absPath x.segs ≠ absPath [] := fun h =>
      t.ne_top x hx (absPath_injective (t.plain x hx) (by simp) h)
    have hfound := find?_eq_of_unique (p := fun y => decide (absPath y.segs = absPath x.segs)) hx
      (by simp) fun y hy hp => eq_of_absPath hx hy (of_decide_eq_true hp)
    simp only [inMemory, if_neg hne, hfound]
  stat_top := ⟨⟨absPath [], 0, true, 0⟩, by simp [inMemory], rfl⟩
  stat_missing p hp htop hnone := by
    have hne : absPath p ≠ absPath [] := fun h => htop (absPath_injective hp (by simp) h)
    have hfound : (t.nodes.find? fun y => decide (absPath y.segs = absPath p)) = none := by
      rw [List.find?_eq_none]
      intro y hy h
      exact hnone y hy (absPath_injective (t.plain y hy) hp (of_decide_eq_true h))
    exact ⟨"", by simp only [inMemory, if_neg hne, hfound]⟩
  opens x hx hfile := by
    have hfound := find?_eq_of_unique (p := fun y => decide (absPath y.segs = absPath x.segs)) hx
      (by simp) fun y hy hp => eq_of_absPath hx hy (of_decide_eq_true hp)
    refine ⟨⟨absPath x.segs, x.length.toNat, 0⟩, by simp only [inMemory, hfound], rfl,
      fun start len _ => ⟨1, ?_⟩⟩
    simp [BytesStream.upstreamBytes, inMemory, hfound]
  fits := fits

end StoredTree

end HdfsS3Gateway
