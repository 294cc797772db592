import HdfsS3Gateway.S3.Namespace

/-!
# The events of a flat listing

A flat listing of a tree deals with its events in the order of their keys: the files it returns, and
the directories it opens on the way. `FlatListing.collect` works off a list of events directly, and
says what a page is without a heap or a cursor.

A directory whose key does not start with the prefix, or whose children all come before the marker,
has no event at or below it.
-/

namespace HdfsS3Gateway

open Interaction Lexicographic

/-- A flat listing of a tree: where it starts, what it filters by, and the outcome that each
directory is listed with. -/
structure FlatListing where
  tree : Namespace
  outcome : List Str → Option HdfsError
  mapper : PathMapper
  pre : Str
  after : Option Str
  start : List Str
  plain : ∀ s ∈ start, Plain s
  starts : mapper.listStart pre = some (absPath start)

namespace FlatListing

variable (w : FlatListing)

/-- A node strictly below the start. -/
structure Below (x : Inode) : Prop where
  mem : x ∈ w.tree.nodes
  above : w.start <+: x.segs
  ne_start : w.start ≠ x.segs

/-- The prefix and the marker let a node through. -/
def Passes (x : Inode) : Prop :=
  w.pre <+: w.mapper.keyOf x.segs ∧ ∀ marker, w.after = some marker → ¬ Behind marker (x.entry w.mapper)

/-- A node that the listing has to deal with: it is let through, and every directory between the
start and the node can be listed. -/
structure IsEvent (x : Inode) : Prop extends w.Below x where
  passes : w.Passes x
  reached : ∀ p, w.start <+: p → w.start ≠ p → p <+: x.segs → p ≠ x.segs → w.outcome p = none

/-- The events in the order of their keys. -/
structure Events (events : List Inode) : Prop where
  sorted : events.Pairwise fun x y => x.sortKey w.mapper < y.sortKey w.mapper
  mem_iff : ∀ x, x ∈ events ↔ w.IsEvent x

/-- The error that ends the listing when this directory is opened. -/
def fails (x : Inode) : Option HdfsError :=
  (w.outcome x.segs).filter fun err => !SortedListing.skippable err

/-- Work off events: return files until the page is full, open directories, and stop at a directory
that fails. The second component is the list of directories opened. -/
def collect (limit : Option ℕ) : List Inode → List ListEntry →
    Except HdfsError (List ListEntry × Bool) × List (List Str)
  | [], page => (.ok (page, false), [])
  | x :: rest, page =>
    if x.isdir then
      match w.fails x with
      | some err => (.error err, [x.segs])
      | none => ((collect limit rest page).1, x.segs :: (collect limit rest page).2)
    else if some page.length = limit then (.ok (page, true), [])
    else collect limit rest (page ++ [x.object w.mapper])

variable {w} {x y : Inode} {events : List Inode}

/-- The listing starts at or below the root. -/
theorem root_prefix (w : FlatListing) : w.mapper.rootSegments <+: w.start := by
  obtain ⟨segs, hplain, heq, hroot⟩ := w.mapper.listStart_eq_some w.starts
  rwa [absPath_injective w.plain hplain heq]

theorem Below.addressed (h : w.Below x) : w.mapper.Addressed x.segs := by
  refine ⟨w.tree.plain x h.mem, w.root_prefix.trans h.above, ?_⟩
  intro heq
  have hlen := w.root_prefix.length_le
  rw [← heq] at hlen
  exact h.ne_start (h.above.eq_of_length_le hlen)

/-- Nodes below a node below the start are below the start. -/
theorem Below.of_covers (h : w.Below x) (hy : y ∈ w.tree.nodes) (hcov : x.segs <+: y.segs) :
    w.Below y := by
  refine ⟨hy, h.above.trans hcov, ?_⟩
  intro heq
  exact h.ne_start (h.above.eq_of_length_le (heq ▸ hcov.length_le))

/-- A node whose key starts with the prefix is below the start. -/
theorem below_of_isPrefix (hx : x ∈ w.tree.nodes) (haddr : w.mapper.Addressed x.segs)
    (hpre : w.pre <+: w.mapper.keyOf x.segs) : w.Below x := by
  obtain ⟨habove, hne, -⟩ := PathMapper.listStart_above w.plain w.starts haddr hpre
  exact ⟨hx, habove, hne⟩

/-- If a node is let through, so is every directory between the start and the node. -/
theorem passes_of_covers (hx : w.Below x) (hdir : x.isdir = true) (hy : y ∈ w.tree.nodes)
    (hcov : x.segs <+: y.segs) (hpass : w.Passes y) : w.Passes x := by
  have hbelow := hx.of_covers hy hcov
  obtain ⟨-, -, hbetween⟩ :=
    PathMapper.listStart_above w.plain w.starts hbelow.addressed hpass.1
  refine ⟨hbetween x.segs hx.above hx.ne_start hcov, fun marker hmarker hbehind => ?_⟩
  apply hpass.2 marker hmarker
  -- everything below a directory that is behind the marker is behind it too
  have hsame : x.segs = y.segs → y.isdir = true := fun h =>
    (Namespace.eq_of_segs hx.mem hy h) ▸ hdir
  have hpre := Inode.dirOutput_prefix_sortKey hx.addressed hcov hsame
  simp only [Inode.entry, hdir, if_true, Behind, dirChildrenAllBefore_iff] at hbehind
  obtain ⟨t, ht⟩ := hpre
  have hlt : y.sortKey w.mapper < marker := ht ▸ append_lt_of_lt hbehind.1 hbehind.2 t
  cases hydir : y.isdir with
  | false =>
    rw [Inode.sortKey_file hydir] at hlt
    simp only [Inode.entry, hydir, Bool.false_eq_true, if_false, Behind, Inode.object]
    exact le_of_lt hlt
  | true =>
    rw [Inode.sortKey_dir hydir] at hlt ht
    simp only [Inode.entry, hydir, if_true, Behind, dirChildrenAllBefore_iff]
    exact ⟨hlt, fun h => hbehind.2 (List.IsPrefix.trans ⟨t, ht⟩ h)⟩

/-- Nodes below the start can be put in the order of their keys. -/
theorem exists_sorted (w : FlatListing) {P : Inode → Prop} (hP : ∀ x, P x → w.Below x) :
    ∃ xs : List Inode, xs.Pairwise (fun x y => x.sortKey w.mapper < y.sortKey w.mapper) ∧
      ∀ x, x ∈ xs ↔ P x := by
  classical
  have hmem : ∀ x, x ∈ (w.tree.nodes.filter fun x => P x).mergeSort
      (fun x y => decide (x.sortKey w.mapper ≤ y.sortKey w.mapper)) ↔ P x := by
    intro x
    rw [List.mem_mergeSort, List.mem_filter, decide_eq_true_iff, and_iff_right_iff_imp]
    exact fun h => (hP x h).mem
  refine ⟨_, ?_, hmem⟩
  have hsorted := SortedSearch.pairwise_mergeSort_key
    (fun x y : Inode => @decide_eq_true_iff (x.sortKey w.mapper ≤ y.sortKey w.mapper) _)
    (w.tree.nodes.filter fun x => P x)
  have hnodup := (List.mergeSort_perm (w.tree.nodes.filter fun x => P x)
    (fun x y => decide (x.sortKey w.mapper ≤ y.sortKey w.mapper))).nodup_iff.mpr
      (w.tree.nodup_nodes.filter _)
  refine (hsorted.and (List.Nodup.pairwise_of_forall_ne hnodup ?_)).imp
    fun h => lt_of_le_of_ne h.1 h.2
  intro x hx y hy hne heq
  have hbx := hP x ((hmem x).mp hx)
  have hby := hP y ((hmem y).mp hy)
  exact hne (Namespace.eq_of_segs hbx.mem hby.mem
    (Inode.segs_eq_of_sortKey hbx.addressed hby.addressed heq))

/-- There is one list of the events in order. -/
theorem exists_events (w : FlatListing) : ∃ events, w.Events events := by
  obtain ⟨events, hsorted, hmem⟩ := w.exists_sorted fun x (h : w.IsEvent x) => h.toBelow
  exact ⟨events, hsorted, hmem⟩

end FlatListing

end HdfsS3Gateway
