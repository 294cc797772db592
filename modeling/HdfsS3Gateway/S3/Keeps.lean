import HdfsS3Gateway.S3.World

/-!
# What requests keep

An invariant about the caches can only be broken by an insertion. So if every other command keeps
it, a request keeps it as soon as the three helpers that insert do: the stat, the opening of a
reader and the listing of a directory. One lemma per program states this for any invariant, from
the helpers up.
-/

namespace HdfsS3Gateway

open Interaction

/-- Every command but an insertion keeps the invariant. -/
def ReadsKeep {crates : Crates} {H : Type} {M : Machine Cmd Cmd.Resp (World crates H)}
    (R : Rely M) : Prop :=
  ∀ c, (∀ name path value weight, c ≠ .cacheInsert name path value weight) →
    R.Keeps (Prog.perform c)

namespace HdfsGateway

variable {self : HdfsGateway} {H : Type} {M : Machine Cmd Cmd.Resp (World self.crates H)}
  {R : Rely M}

/-- A HEAD inserts what the stat inserts. -/
theorem keeps_headObject {input : HeadObjectInput}
    (hmeta : ∀ path, R.Keeps (self.fileMeta path)) : R.Keeps (self.headObject input) := by
  unfold headObject
  split
  · exact Rely.keeps_pure _
  · apply Rely.keeps_bind (hmeta _)
    intro status
    split <;> exact Rely.keeps_pure _

section Reads

variable (hreads : ReadsKeep R)
include hreads

theorem keeps_cacheGet (name : CacheName) (path : Str) : R.Keeps (cacheGet name path) :=
  hreads _ fun _ _ _ _ h => by cases h

theorem keeps_cacheRemove (name : CacheName) (path : Str) : R.Keeps (cacheRemove name path) :=
  hreads _ fun _ _ _ _ h => by cases h

theorem keeps_callUpstream (u : Upstream) : R.Keeps (callUpstream u) :=
  hreads _ fun _ _ _ _ h => by cases h

/-- A reader that is long enough is inserted by the opening only. -/
theorem keeps_openObject {path : Str} {label : FileMeta} {prepared : Prepared}
    (hopen : R.Keeps (self.openReader path label)) :
    R.Keeps (self.openObject path label prepared) := by
  apply Rely.keeps_bind hopen
  intro reader
  split
  · exact Rely.keeps_pure _
  · split
    · exact Rely.keeps_bind (keeps_cacheRemove hreads _ _) fun _ =>
        Rely.keeps_bind (keeps_cacheRemove hreads _ _) fun _ => Rely.keeps_pure _
    · exact Rely.keeps_pure _

/-- A body inserts nothing. -/
theorem keeps_drain (path : Str) (object : GetObject) (polls : ℕ) (s : BytesStream) :
    R.Keeps (BytesStream.drain (pollBody path object) polls s) := by
  induction polls generalizing s with
  | zero => exact Rely.keeps_pure _
  | succ polls ih =>
    unfold BytesStream.drain BytesStream.next
    apply Rely.keeps_bind
    · split
      · exact Rely.keeps_pure _
      · apply Rely.keeps_bind _ fun _ => Rely.keeps_pure _
        apply Rely.keeps_bind (keeps_callUpstream hreads _)
        intro item
        split
        · exact Rely.keeps_bind (keeps_cacheRemove hreads _ _) fun _ =>
            Rely.keeps_bind (keeps_cacheRemove hreads _ _) fun _ => Rely.keeps_pure _
        · exact Rely.keeps_pure _
    · intro item
      split
      · exact Rely.keeps_pure _
      · exact Rely.keeps_bind (ih _) fun _ => Rely.keeps_pure _

/-- The listing of a directory is inserted by the call for it only. -/
theorem keeps_listDir {dir : Str} (hfetch : R.Keeps (self.fetchDir dir)) :
    R.Keeps (self.listDir dir) := by
  apply Rely.keeps_bind (keeps_cacheGet hreads _ _)
  intro found
  split
  · exact Rely.keeps_pure _
  · exact hfetch

end Reads

section Listings

variable (hlist : ∀ dir, R.Keeps (self.listDir dir))
include hlist

/-- The sorted merge inserts what it lists. -/
theorem keeps_collectFlat (fuel : ℕ) (args : ListArgs) (limit : Option ℕ) :
    R.Keeps (self.collectFlat fuel args limit) := by
  unfold collectFlat
  split
  · exact Rely.keeps_pure _
  · apply Rely.keeps_bind (Rely.keeps_handle hlist _)
    intro result
    split <;> exact Rely.keeps_pure _

/-- So does every page. -/
theorem keeps_listPage (fuel : ℕ) (args : ListArgs) : R.Keeps (self.listPage fuel args) := by
  unfold listPage
  split_ifs
  · apply Rely.keeps_bind
    · unfold listStartDir
      split
      · exact Rely.keeps_pure _
      · exact hlist _
    · intro result
      split <;> exact Rely.keeps_pure _
  · apply Rely.keeps_bind
    · unfold collectAll
      split
      · exact Rely.keeps_pure _
      · exact keeps_collectFlat hlist _ _ _
    · exact fun _ => Rely.keeps_pure _
  · exact Rely.keeps_bind (keeps_collectFlat hlist _ _ _) fun _ => Rely.keeps_pure _

/-- A listing inserts what it lists. -/
theorem keeps_listObjectsV2 (fuel : ℕ) (input : ListObjectsV2Input) :
    R.Keeps (self.listObjectsV2 fuel input) := by
  unfold listObjectsV2
  split
  · exact Rely.keeps_pure _
  · exact Rely.keeps_bind (keeps_listPage hlist fuel _) fun _ => Rely.keeps_pure _

end Listings

end HdfsGateway

end HdfsS3Gateway
