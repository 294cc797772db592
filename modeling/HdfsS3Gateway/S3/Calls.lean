import HdfsS3Gateway.S3.Gateway

/-!
# The calls to HDFS that a request makes

A predicate on upstream calls holds of every call that a request can make, whatever the replies, if
it holds of the calls on the paths that the request derives from its input. One lemma per program
states this, from the helpers up to `serve`.
-/

namespace HdfsS3Gateway

open Interaction

/-- A predicate on upstream calls, as one on commands. -/
def OnUpstream (Q : Upstream → Prop) : Cmd → Prop
  | .upstream u => Q u
  | _ => True

section Commands

variable {Q : Upstream → Prop} {name : CacheName} {path : Str}

@[simp] theorem always_cacheGet : (cacheGet name path).Always (OnUpstream Q) :=
  (Prog.always_perform _ _).mpr trivial

@[simp] theorem always_cacheInsert {value : name.Value} {weight : ℕ} :
    (cacheInsert name path value weight).Always (OnUpstream Q) :=
  (Prog.always_perform _ _).mpr trivial

@[simp] theorem always_cacheRemove : (cacheRemove name path).Always (OnUpstream Q) :=
  (Prog.always_perform _ _).mpr trivial

@[simp] theorem always_callUpstream {u : Upstream} :
    (callUpstream u).Always (OnUpstream Q) ↔ Q u := Prog.always_perform _ _

end Commands

namespace HdfsGateway

variable (self : HdfsGateway) {Q : Upstream → Prop}

/-- The metadata of a path costs at most a `getFileInfo` on it. -/
theorem always_fileMeta {path : Str} (h : Q (.getFileInfo path)) :
    (self.fileMeta path).Always (OnUpstream Q) := by
  refine Prog.always_bind always_cacheGet fun cached _ => ?_
  split
  · trivial
  · refine Prog.always_bind always_cacheGet fun missing _ => ?_
    split
    · trivial
    · refine Prog.always_bind (always_callUpstream.mpr h) fun reply _ => ?_
      split
      · exact Prog.always_bind always_cacheInsert fun _ _ => trivial
      · exact Prog.always_bind always_cacheInsert fun _ _ => trivial
      · trivial

/-- Opening a path costs at most a `read` on it. -/
theorem always_readFile {path : Str} {label : FileMeta} (h : Q (.read path label)) :
    (self.readFile path label).Always (OnUpstream Q) := by
  refine Prog.always_bind (always_callUpstream.mpr h) fun reply _ => ?_
  split
  · exact Prog.always_bind always_cacheInsert fun _ _ => trivial
  · exact Prog.always_bind always_cacheRemove fun _ _ => trivial

/-- So does reusing a reader. -/
theorem always_openReader {path : Str} {label : FileMeta} (h : Q (.read path label)) :
    (self.openReader path label).Always (OnUpstream Q) := by
  refine Prog.always_bind always_cacheGet fun cached _ => ?_
  split
  · split
    · trivial
    · exact Prog.always_bind always_cacheRemove fun _ _ => self.always_readFile h
  · exact self.always_readFile h

/-- So does opening one that is long enough. -/
theorem always_openObject {path : Str} {label : FileMeta} {prepared : Prepared}
    (h : Q (.read path label)) :
    (self.openObject path label prepared).Always (OnUpstream Q) := by
  refine Prog.always_bind (self.always_openReader h) fun reader _ => ?_
  split
  · trivial
  · split
    · exact Prog.always_bind always_cacheRemove fun _ _ =>
        Prog.always_bind always_cacheRemove fun _ _ => trivial
    · trivial

/-- The calls that a HEAD or a GET makes on the path of its key, before any body is read. -/
def PathCalls (Q : Upstream → Prop) (bucket key : Str) : Prop :=
  ∀ path, self.resolvePath bucket key = .ok path →
    Q (.getFileInfo path) ∧ ∀ label, Q (.read path label)

/-- A HEAD calls HDFS only on the path of its key. -/
theorem always_headObject {input : HeadObjectInput} (h : self.PathCalls Q input.bucket input.key) :
    (self.headObject input).Always (OnUpstream Q) := by
  unfold headObject
  split
  · trivial
  · rename_i path hpath
    refine Prog.always_bind (self.always_fileMeta (h path hpath).1) fun status _ => ?_
    split <;> trivial

/-- A GET calls HDFS only on the path of its key, before its body. -/
theorem always_getObject {input : GetObjectInput} (h : self.PathCalls Q input.bucket input.key) :
    (self.getObject input).Always (OnUpstream Q) := by
  unfold getObject
  split
  · trivial
  · rename_i path hpath
    refine Prog.always_bind (self.always_fileMeta (h path hpath).1) fun status _ => ?_
    split
    · trivial
    · split
      · trivial
      · exact self.always_openObject ((h path hpath).2 _)

/-- A body polls the window of its GET, as often as the client polls the body. -/
theorem always_drain {path : Str} {object : GetObject}
    (h : ∀ position, Q (.pollRange object.reader object.windowStart object.remaining position))
    (polls : ℕ) (s : BytesStream) :
    (BytesStream.drain (pollBody path object) polls s).Always (OnUpstream Q) := by
  have hpoll : ∀ position, (pollBody path object position).Always (OnUpstream Q) := by
    intro position
    refine Prog.always_bind (always_callUpstream.mpr (h position)) fun item _ => ?_
    split
    · exact Prog.always_bind always_cacheRemove fun _ _ =>
        Prog.always_bind always_cacheRemove fun _ _ => trivial
    · trivial
  induction polls generalizing s with
  | zero => trivial
  | succ polls ih =>
    refine Prog.always_bind ?_ fun item _ => ?_
    · unfold BytesStream.next
      split
      · trivial
      · exact Prog.always_bind (hpoll _) fun _ _ => trivial
    · split
      · trivial
      · exact Prog.always_bind (ih _) fun _ _ => trivial

/-- A served GET calls HDFS on the path of its key, and polls the windows it can answer with. -/
theorem always_serveGet {input : GetObjectInput} {polls : ℕ}
    (h : self.PathCalls Q input.bucket input.key)
    (hpoll : ∀ path object, (self.getObject input).Yields (.ok (path, object)) →
      ∀ position, Q (.pollRange object.reader object.windowStart object.remaining position)) :
    (self.serveGet input polls).Always (OnUpstream Q) := by
  refine Prog.always_bind (self.always_getObject h) fun result hresult => ?_
  split
  · trivial
  · exact Prog.always_bind (always_drain (hpoll _ _ hresult) _ _) fun _ _ => trivial

end HdfsGateway

/-! ## Listings -/

namespace SortedListing

/-- The same walk, at a later point. -/
def SameWalk (self later : SortedListing) : Prop :=
  later.mapper = self.mapper ∧ later.pre = self.pre ∧ later.after = self.after ∧
    later.start = self.start

theorem SameWalk.refl (self : SortedListing) : SameWalk self self := ⟨rfl, rfl, rfl, rfl⟩

theorem SameWalk.trans {a b c : SortedListing} (hab : SameWalk a b) (hbc : SameWalk b c) :
    SameWalk a c :=
  ⟨hbc.1.trans hab.1, hbc.2.1.trans hab.2.1, hbc.2.2.1.trans hab.2.2.1,
    hbc.2.2.2.trans hab.2.2.2⟩

/-- Opening a directory keeps the walk. -/
theorem openDir_sameWalk {self later : SortedListing} {path : Str} {t : Turn}
    (h : (self.openDir path).Yields (t, later)) : SameWalk self later := by
  unfold openDir at h
  rw [Prog.perform_bind] at h
  obtain ⟨reply, h⟩ := h
  simp only [] at h
  split at h
  · obtain ⟨-, rfl⟩ := Prod.mk.inj h
    exact SameWalk.refl self
  · split at h
    · obtain ⟨-, rfl⟩ := Prod.mk.inj h
      exact SameWalk.refl self
    · split at h <;>
      · obtain ⟨-, rfl⟩ := Prod.mk.inj h
        exact SameWalk.refl self

/-- A turn keeps the walk. -/
theorem turn_sameWalk {self later : SortedListing} {t : Turn} (h : self.turn.Yields (t, later)) :
    SameWalk self later := by
  have hret : ∀ {t' : Turn} {heap : List Cursor},
      (t', { self with heap }) = (t, later) → SameWalk self later := by
    intro t' heap heq
    obtain ⟨-, rfl⟩ := Prod.mk.inj heq
    exact SameWalk.refl self
  unfold turn at h
  split at h
  · obtain ⟨-, rfl⟩ := Prod.mk.inj h
    exact SameWalk.refl self
  · simp only [] at h
    split at h
    · split at h
      · exact hret h
      · split at h
        · split at h <;> exact hret h
        · exact hret h
    · split at h
      · exact hret h
      · split at h
        · exact hret h
        · split at h
          · exact hret h
          · have hw := openDir_sameWalk h
            exact hw

/-- The directories that a walk can open. -/
def Opens (R : Str → Prop) (self : SortedListing) : Prop :=
  R self.start ∧ ∀ key path, self.mapper.keyToHdfsPath key = some path → R path

theorem Opens.later {R : Str → Prop} {self later : SortedListing} (h : Opens R self)
    (hw : SameWalk self later) : Opens R later := by
  unfold Opens
  rw [hw.1, hw.2.2.2]
  exact h

variable {R : Str → Prop}

/-- A turn opens at most a directory that the mapper returns. -/
theorem always_turn {self : SortedListing} (h : Opens R self) : self.turn.Always R := by
  unfold turn
  split
  · trivial
  · simp only []
    split
    · split
      · trivial
      · split
        · split <;> trivial
        · trivial
    · split
      · trivial
      · split
        · trivial
        · split
          · trivial
          · rename_i path hpath
            refine Prog.always_bind ((Prog.always_perform _ _).mpr (h.2 _ _ hpath)) fun reply _ => ?_
            split
            · trivial
            · split
              · trivial
              · split <;> trivial

/-- So does the loop of turns, which also keeps the walk. -/
theorem always_nextLoop (fuel : ℕ) {self : SortedListing} (h : Opens R self) :
    (nextLoop fuel self).Always R := by
  induction fuel generalizing self with
  | zero => trivial
  | succ fuel ih =>
    refine Prog.always_bind (always_turn h) fun result hresult => ?_
    split
    · trivial
    · trivial
    · trivial
    · exact ih (h.later (turn_sameWalk hresult))

theorem nextLoop_sameWalk {fuel : ℕ} {self later : SortedListing}
    {result : Except ListError (Option ListEntry)} (h : (nextLoop fuel self).Yields (result, later)) :
    SameWalk self later := by
  induction fuel generalizing self with
  | zero =>
    obtain ⟨-, rfl⟩ := Prod.mk.inj h
    exact SameWalk.refl self
  | succ fuel ih =>
    rw [nextLoop, Prog.yields_bind] at h
    obtain ⟨⟨t, next⟩, hturn, h⟩ := h
    have hw := turn_sameWalk hturn
    cases t with
    | again => exact hw.trans (ih h)
    | emit | stop | fail =>
      obtain ⟨-, rfl⟩ := Prod.mk.inj h
      exact hw

/-- Seeding opens the start directory and keeps the walk. -/
theorem always_seed {self : SortedListing} (h : Opens R self) : self.seed.Always R := by
  refine Prog.always_bind ((Prog.always_perform _ _).mpr h.1) fun reply _ => ?_
  split <;> trivial

theorem seed_sameWalk {self later : SortedListing} (h : self.seed.Yields (.ok later)) :
    SameWalk self later := by
  unfold seed at h
  rw [Prog.perform_bind] at h
  obtain ⟨reply, h⟩ := h
  simp only [] at h
  split at h
  · obtain rfl := Except.ok.inj h
    exact SameWalk.refl self
  · obtain rfl := Except.ok.inj h
    exact SameWalk.refl self
  · contradiction

/-- A pull opens directories of the walk, and keeps it. -/
theorem always_nextEntry (fuel : ℕ) {self : SortedListing} (h : Opens R self) :
    (nextEntry fuel self).Always R := by
  unfold nextEntry
  split
  · trivial
  · split
    · exact always_nextLoop fuel h
    · refine Prog.always_bind (always_seed h) fun seeded hseeded => ?_
      split
      · trivial
      · split
        · trivial
        · exact always_nextLoop fuel (h.later (seed_sameWalk hseeded))

theorem nextEntry_sameWalk {fuel : ℕ} {self later : SortedListing}
    {result : Except ListError (Option ListEntry)}
    (h : (nextEntry fuel self).Yields (result, later)) : SameWalk self later := by
  unfold nextEntry at h
  split at h
  · obtain ⟨-, rfl⟩ := Prod.mk.inj h
    exact SameWalk.refl self
  · split at h
    · exact nextLoop_sameWalk h
    · rw [Prog.yields_bind] at h
      obtain ⟨seeded, hseeded, h⟩ := h
      split at h
      · obtain ⟨-, rfl⟩ := Prod.mk.inj h
        exact SameWalk.refl self
      · have hw := seed_sameWalk hseeded
        split at h
        · obtain ⟨-, rfl⟩ := Prod.mk.inj h
          exact hw
        · exact hw.trans (nextLoop_sameWalk h)

/-- Collecting a page opens only the start directory and directories that the mapper returns. -/
theorem always_collectPage (fuel : ℕ) (maxKeys : Option ℕ) {self : SortedListing}
    (h : Opens R self) : (collectPage fuel maxKeys self).Always R := by
  have hloop : ∀ rounds (self : SortedListing) page, Opens R self →
      (collectLoop fuel maxKeys rounds self page).Always R := by
    intro rounds
    induction rounds with
    | zero => exact fun _ _ _ => trivial
    | succ rounds ih =>
      intro self page h
      unfold collectLoop
      split
      · exact Prog.always_bind (always_nextEntry fuel h) fun _ _ => trivial
      · refine Prog.always_bind (always_nextEntry fuel h) fun result hresult => ?_
        obtain ⟨result, later⟩ := result
        simp only []
        split
        · trivial
        · exact ih later _ (h.later (nextEntry_sameWalk hresult))
        · trivial
  unfold collectPage
  split
  · trivial
  · exact hloop fuel self [] h

end SortedListing

namespace HdfsGateway

variable (self : HdfsGateway) {Q : Upstream → Prop}

/-- Listing a directory costs at most a `getListing` on it. -/
theorem always_listDir {dir : Str} (h : Q (.listStatus dir)) :
    (self.listDir dir).Always (OnUpstream Q) := by
  refine Prog.always_bind always_cacheGet fun cached _ => ?_
  split
  · trivial
  · refine Prog.always_bind (always_callUpstream.mpr h) fun reply _ => ?_
    split
    · trivial
    · simp only []
      split
      · exact Prog.always_bind always_cacheInsert fun _ _ => trivial
      · trivial

/-- A listing lists only its start directory, and directories that the mapper returns for keys. -/
theorem always_listObjectsV2 (fuel : ℕ) (input : ListObjectsV2Input)
    (hstart : ∀ args path, self.listArgs input = .ok args →
      self.mapper.listStart args.pre = some path → Q (.listStatus path))
    (hkey : ∀ key path, self.mapper.keyToHdfsPath key = some path → Q (.listStatus path)) :
    (self.listObjectsV2 fuel input).Always (OnUpstream Q) := by
  unfold listObjectsV2
  split
  · trivial
  · rename_i args hargs
    have hflat : ∀ maxKeys, (self.collectFlat fuel args maxKeys).Always (OnUpstream Q) := by
      intro maxKeys
      unfold collectFlat
      split
      · trivial
      · rename_i start hs
        have hopens : SortedListing.Opens (fun path => Q (.listStatus path))
            (.new start args.pre args.startAfter self.mapper) := ⟨hstart args start hargs hs, hkey⟩
        have hcollect := SortedListing.always_collectPage fuel maxKeys hopens
        refine Prog.always_bind
          (Prog.always_handle (fun dir hdir => self.always_listDir hdir) _ hcollect) fun page _ => ?_
        split <;> trivial
    refine Prog.always_bind ?_ fun page _ => trivial
    unfold listPage
    split
    · unfold pageSlash
      refine Prog.always_bind ?_ fun listing _ => ?_
      · unfold listStartDir
        split
        · trivial
        · rename_i start hs
          exact self.always_listDir (hstart args start hargs hs)
      · split <;> trivial
    · split
      · unfold pageDelimiter
        refine Prog.always_bind ?_ fun _ _ => trivial
        unfold collectAll
        split
        · trivial
        · exact hflat none
      · unfold pageFlat
        exact Prog.always_bind (hflat _) fun _ _ => trivial

end HdfsGateway

end HdfsS3Gateway
