import HdfsS3Gateway.S3.Walk

/-!
# One turn of the engine on the events

The invariant of the engine is that its frontier stands for the events that are still to come. A
node on it comes from a directory that was opened, so if the prefix and the marker let it through it
is an event, and otherwise no event lies at or below it. A turn takes the next event off the
frontier, or a node without events.
-/

namespace HdfsS3Gateway

open Interaction Lexicographic

namespace FlatListing

variable {w : FlatListing} {x y : Inode} {events : List Inode}

/-! ## Nodes on the frontier -/

/-- A node that may be on the frontier. A file may be the start itself; it is not let through. -/
structure Good (w : FlatListing) (events : List Inode) (x : Inode) : Prop where
  mem : x ∈ w.tree.nodes
  addressed : w.mapper.Addressed x.segs
  below : x.isdir = true → w.Below x
  event : w.Passes x → x ∈ events

namespace Good

/-- The events at or below a node that is not let through: none. -/
theorem found_eq_nil (h : w.Good events x) (he : w.Events events) (hpass : ¬ w.Passes x) :
    events.filter x.covers = [] := by
  rw [List.filter_eq_nil_iff]
  intro y hy hcov
  rw [Inode.covers_iff] at hcov
  have hevent := (he.mem_iff y).mp hy
  cases hdir : x.isdir with
  | false =>
    obtain rfl := Namespace.eq_of_covers_file h.mem hevent.mem hdir hcov
    exact hpass hevent.passes
  | true => exact hpass (passes_of_covers (h.below hdir) hdir hevent.mem hcov hevent.passes)

/-- No event at or below a node comes before it. -/
theorem sortKey_le (h : w.Good events x) (he : w.Events events) {y : Inode}
    (hy : y ∈ events.filter x.covers) : x.sortKey w.mapper ≤ y.sortKey w.mapper := by
  obtain ⟨hy, hcov⟩ := List.mem_filter.mp hy
  rw [Inode.covers_iff] at hcov
  have hevent := (he.mem_iff y).mp hy
  cases hdir : x.isdir with
  | false =>
    obtain rfl := Namespace.eq_of_covers_file h.mem hevent.mem hdir hcov
    exact le_refl _
  | true =>
    rw [Inode.sortKey_dir hdir]
    exact le_of_isPrefix (Inode.dirOutput_prefix_sortKey h.addressed hcov
      fun heq => (Namespace.eq_of_segs h.mem hevent.mem heq) ▸ hdir)

end Good

/-- Different events have different keys, so the list of events has no repetition. -/
theorem Events.nodup (he : w.Events events) : events.Nodup := by
  apply he.sorted.imp
  rintro x y hlt rfl
  exact lt_irrefl _ hlt

/-- The events at or below an event: the node itself, and what lies at or below its children. -/
theorem Events.found_perm (he : w.Events events) (hx : x ∈ events) :
    (events.filter x.covers).Perm
      (x :: (w.tree.children x.segs).flatMap fun c => events.filter c.covers) := by
  have hmem : ∀ y ∈ events, y ∈ w.tree.nodes := fun y hy => ((he.mem_iff y).mp hy).mem
  exact (Namespace.filter_covers_perm he.nodup hmem hx).trans
    ((Namespace.filter_below_perm he.nodup hmem x.segs).cons x)

/-- Below a directory that cannot be listed, and below a file, there are no events. -/
theorem Events.found_singleton (he : w.Events events) (hx : x ∈ events)
    (hleaf : x.isdir = false ∨ ∃ err, w.outcome x.segs = some err) :
    (events.filter x.covers).Perm [x] := by
  have hmem : ∀ y ∈ events, y ∈ w.tree.nodes := fun y hy => ((he.mem_iff y).mp hy).mem
  have hxe := (he.mem_iff x).mp hx
  have hnone : events.filter (fun y => decide (x.segs <+: y.segs ∧ x.segs ≠ y.segs)) = [] := by
    rw [List.filter_eq_nil_iff]
    intro y hy hcov
    rw [decide_eq_true_iff] at hcov
    rcases hleaf with hfile | ⟨err, herr⟩
    · exact hcov.2 (by rw [Namespace.eq_of_covers_file hxe.mem (hmem y hy) hfile hcov.1])
    · have hok := ((he.mem_iff y).mp hy).reached x.segs hxe.above hxe.ne_start hcov.1 hcov.2
      rw [herr] at hok
      contradiction
  have hperm := Namespace.filter_covers_perm he.nodup hmem hx
  rwa [hnone] at hperm

/-- The children of an event that can be listed may be on the frontier. -/
theorem Events.good_children (he : w.Events events) (hx : x ∈ events)
    (hok : w.outcome x.segs = none) : ∀ c ∈ w.tree.children x.segs, w.Good events c := by
  intro c hc
  obtain ⟨hc, name, hsegs⟩ := Namespace.mem_children.mp hc
  have hxe := (he.mem_iff x).mp hx
  have hbelow := hxe.toBelow.of_covers hc (hsegs ▸ List.prefix_append _ _)
  refine ⟨hc, hbelow.addressed, fun _ => hbelow, fun hpass => (he.mem_iff c).mpr ?_⟩
  refine ⟨hbelow, hpass, fun p habove hne hp hpc => ?_⟩
  rw [hsegs] at hp hpc
  rcases List.prefix_concat_iff.mp hp with heq | hp
  · exact absurd heq hpc
  · by_cases hpx : p = x.segs
    · rwa [hpx]
    · exact hxe.reached p habove hne hp hpx

/-- The children of the start may be on the frontier. -/
theorem Events.good_start (he : w.Events events) : ∀ c ∈ w.tree.children w.start, w.Good events c := by
  intro c hc
  obtain ⟨hc, name, hsegs⟩ := Namespace.mem_children.mp hc
  have hbelow : w.Below c := by
    refine ⟨hc, hsegs ▸ List.prefix_append _ _, ?_⟩
    rw [hsegs]
    exact fun h => by simp at h
  refine ⟨hc, hbelow.addressed, fun _ => hbelow, fun hpass => (he.mem_iff c).mpr ?_⟩
  refine ⟨hbelow, hpass, fun p habove hne hp hpc => ?_⟩
  rw [hsegs] at hp hpc
  rcases List.prefix_concat_iff.mp hp with heq | hp
  · exact absurd heq hpc
  · exact absurd (habove.eq_of_length_le hp.length_le) hne

/-- The events below the start are those at or below its children. -/
theorem Events.found_start (he : w.Events events) :
    ((w.tree.children w.start).flatMap fun c => events.filter c.covers).Perm events := by
  have hmem : ∀ y ∈ events, y ∈ w.tree.nodes := fun y hy => ((he.mem_iff y).mp hy).mem
  have hall : events.filter (fun y => decide (w.start <+: y.segs ∧ w.start ≠ y.segs)) = events :=
    List.filter_eq_self.mpr fun y hy => by
      have hevent := (he.mem_iff y).mp hy
      exact decide_eq_true ⟨hevent.above, hevent.ne_start⟩
  have hperm := (Namespace.filter_below_perm he.nodup hmem w.start).symm
  rwa [hall] at hperm

/-! ## The engine on the events -/

/-- The nodes at or below the frontier: a bound on the turns that are left. -/
def weight (w : FlatListing) (frontier : List Inode) : ℕ :=
  (frontier.flatMap fun x => w.tree.nodes.filter x.covers).length

/-- The engine is seeded, and its heap stands for these nodes and these events. -/
structure Merging (w : FlatListing) (events : List Inode) (s : SortedListing)
    (frontier rest : List Inode) : Prop where
  mapper : s.mapper = w.mapper
  pre : s.pre = w.pre
  after : s.after = w.after
  seeded : s.startSeeded = true
  alive : s.exhausted = false
  pending : (pending s.heap).Perm (frontier.map (Inode.entry w.mapper))
  good : ∀ x ∈ frontier, w.Good events x
  yields : BestFirst.Yields (fun x => events.filter x.covers) (Inode.sortKey w.mapper) frontier rest

/-- The prefix and the marker of the engine are those of the listing. -/
theorem Merging.passes_iff {s : SortedListing} {frontier rest : List Inode}
    (h : w.Merging events s frontier rest) : s.Passes (x.entry w.mapper) ↔ w.Passes x := by
  rw [SortedListing.Passes, Passes, h.pre, h.after, Inode.entryKey_entry]

/-- The weight of a frontier in parts. -/
theorem weight_cons (x : Inode) (frontier : List Inode) :
    w.weight (x :: frontier) = (w.tree.nodes.filter x.covers).length + w.weight frontier := by
  simp [weight]

theorem weight_append (xs ys : List Inode) : w.weight (xs ++ ys) = w.weight xs + w.weight ys := by
  simp [weight]

theorem weight_perm {xs ys : List Inode} (h : xs.Perm ys) : w.weight xs = w.weight ys :=
  (h.flatMap_right _).length_eq

/-- A node has at least itself below it, and one more than what its children have. -/
theorem weight_children (hx : x ∈ w.tree.nodes) :
    (w.tree.nodes.filter x.covers).length = w.weight (w.tree.children x.segs) + 1 := by
  have hperm := (Namespace.filter_covers_perm w.tree.nodup_nodes (fun _ h => h) hx).trans
    ((Namespace.filter_below_perm w.tree.nodup_nodes (fun _ h => h) x.segs).cons x)
  rw [hperm.length_eq]
  rfl

/-- The state after an entry was popped: the node it belongs to, and the rest of the frontier. -/
structure Taken (w : FlatListing) (events : List Inode) (frontier rest : List Inode)
    (heap : List Cursor) (x : Inode) (others : List Inode) : Prop where
  pending : (pending heap).Perm (others.map (Inode.entry w.mapper))
  good : w.Good events x
  good_others : ∀ y ∈ others, w.Good events y
  yields : BestFirst.Yields (fun x => events.filter x.covers) (Inode.sortKey w.mapper)
    (x :: others) rest
  least : ∀ y ∈ others, x.sortKey w.mapper ≤ y.sortKey w.mapper
  weight : w.weight (x :: others) = w.weight frontier

/-- A popped entry is that of a node on the frontier. -/
theorem Merging.popped {s : SortedListing} {frontier rest : List Inode} {heap : List Cursor}
    {e : ListEntry ⊕ Str} (h : w.Merging events s frontier rest)
    (hpop : SortedListing.Popped s.heap e heap) :
    ∃ x others, x.entry w.mapper = e ∧ w.Taken events frontier rest heap x others := by
  obtain ⟨nodes, hperm, hmap⟩ :=
    BestFirst.exists_perm_of_map_perm (h.pending.symm.trans hpop.perm)
  obtain ⟨x, others, rfl, hentry, hothers⟩ := List.map_eq_cons_iff.mp hmap
  have hgood : ∀ y ∈ x :: others, w.Good events y := fun y hy => h.good y (hperm.mem_iff.mpr hy)
  refine ⟨x, others, hentry, hothers ▸ List.Perm.refl _, hgood x List.mem_cons_self,
    fun y hy => hgood y (List.mem_cons_of_mem _ hy), h.yields.of_perm hperm, fun y hy => ?_,
    (weight_perm hperm).symm⟩
  have hle := hpop.least (y.entry w.mapper) (hothers ▸ List.mem_map_of_mem hy)
  rwa [← hentry] at hle

/-- An event that was popped comes first, and its children take its place. -/
theorem Taken.emit {frontier rest others : List Inode} {heap : List Cursor} {children : List Inode}
    (h : w.Taken events frontier rest heap x others) (he : w.Events events)
    (hx : (events.filter x.covers).Perm
      (x :: children.flatMap fun c => events.filter c.covers)) :
    ∃ rest', rest = x :: rest' ∧ BestFirst.Yields (fun x => events.filter x.covers)
      (Inode.sortKey w.mapper) (children ++ others) rest' :=
  h.yields.emit hx (fun _ hb => h.good.sortKey_le he hb) fun y hy _ hb =>
    le_trans (h.least y hy) ((h.good_others y hy).sortKey_le he hb)

/-- An event without events below it comes first, and nothing takes its place. -/
theorem Taken.emit_leaf {frontier rest others : List Inode} {heap : List Cursor}
    (h : w.Taken events frontier rest heap x others) (he : w.Events events) (hpass : w.Passes x)
    (hleaf : x.isdir = false ∨ ∃ err, w.outcome x.segs = some err) :
    ∃ rest', rest = x :: rest' ∧ BestFirst.Yields (fun x => events.filter x.covers)
      (Inode.sortKey w.mapper) others rest' := by
  have hsingle : (events.filter x.covers).Perm
      (x :: ([] : List Inode).flatMap fun c => events.filter c.covers) :=
    he.found_singleton (h.good.event hpass) hleaf
  exact h.emit he hsingle

/-- What one turn does to the events that are still to come. -/
inductive Stepped (w : FlatListing) (events frontier rest : List Inode) :
    SortedListing.Turn → SortedListing → List Str → Prop
  | stop {s'} (hrest : rest = []) : Stepped w events frontier rest .stop s' []
  | skip {s' frontier'} (hmerging : w.Merging events s' frontier' rest)
      (hweight : w.weight frontier' < w.weight frontier) :
      Stepped w events frontier rest .again s' []
  | emit {s' frontier' x rest'} (hrest : rest = x :: rest') (hfile : x.isdir = false)
      (hmerging : w.Merging events s' frontier' rest')
      (hweight : w.weight frontier' < w.weight frontier) :
      Stepped w events frontier rest (.emit (x.object w.mapper)) s' []
  | opened {s' frontier' x rest'} (hrest : rest = x :: rest') (hdir : x.isdir = true)
      (hok : w.fails x = none) (hmerging : w.Merging events s' frontier' rest')
      (hweight : w.weight frontier' < w.weight frontier) :
      Stepped w events frontier rest .again s' [absPath x.segs]
  | failed {s' x rest' err} (hrest : rest = x :: rest') (hdir : x.isdir = true)
      (hfails : w.fails x = some err) : Stepped w events frontier rest (.fail err) s' [absPath x.segs]

/-- The lister that the engine is run against. -/
def lister (w : FlatListing) (list : Str → Except HdfsError (List FileStatus)) :
    Str → Except HdfsError DirListing :=
  fun path => (list path).map fun statuses => listingFromStatuses statuses w.mapper

variable {list : Str → Except HdfsError (List FileStatus)} {s : SortedListing}
  {frontier rest : List Inode}

/-- Going on after a pop that found no event. -/
theorem Merging.drop (h : w.Merging events s frontier rest) {others : List Inode}
    {heap : List Cursor} (ht : w.Taken events frontier rest heap x others) {rest' : List Inode}
    (hyields : BestFirst.Yields (fun x => events.filter x.covers) (Inode.sortKey w.mapper) others
      rest') : w.Merging events { s with heap } others rest' ∧ w.weight others < w.weight frontier := by
  refine ⟨⟨h.mapper, h.pre, h.after, h.seeded, h.alive, ht.pending, ht.good_others, hyields⟩, ?_⟩
  rw [← ht.weight, weight_cons, weight_children ht.good.mem]
  omega

/-- A file entry belongs to a file. -/
theorem file_entry {e : ListEntry} (hentry : x.entry w.mapper = .inl e) :
    x.isdir = false ∧ e = x.object w.mapper := by
  cases hdir : x.isdir with
  | true =>
    rw [Inode.entry, if_pos hdir] at hentry
    contradiction
  | false =>
    rw [Inode.entry, hdir] at hentry
    exact ⟨rfl, (Sum.inl.inj hentry).symm⟩

/-- A directory entry belongs to a directory of the tree, which is opened at its path. -/
theorem Good.dir_entry (h : w.Good events x) {d : Str} (hentry : x.entry w.mapper = .inr d) :
    x.isdir = true ∧ d = w.mapper.keyOf x.segs ∧
      w.mapper.keyToHdfsPath d = some (absPath x.segs) := by
  have hdir : x.isdir = true := by
    by_contra hfile
    rw [Inode.entry, if_neg hfile] at hentry
    contradiction
  rw [Inode.entry, if_pos hdir] at hentry
  obtain rfl := Sum.inr.inj hentry
  exact ⟨hdir, rfl, w.mapper.keyToHdfsPath_keyOf h.addressed.plain h.addressed.root h.addressed.ne_root⟩

/-- The reply to opening a directory of the tree. -/
theorem lister_dir (hl : w.tree.Lists w.outcome list) (hx : x ∈ w.tree.nodes)
    (hdir : x.isdir = true) :
    (∀ err, w.outcome x.segs = some err → w.lister list (absPath x.segs) = .error err) ∧
      (w.outcome x.segs = none → ∃ statuses,
        w.lister list (absPath x.segs) = .ok (listingFromStatuses statuses w.mapper) ∧
          statuses.Perm ((w.tree.children x.segs).map Inode.status)) := by
  have hisdir : w.tree.IsDir x.segs := Or.inr ⟨x, hx, rfl, hdir⟩
  constructor
  · intro err herr
    rw [lister, hl.failed x.segs err hisdir herr]
    rfl
  · intro hok
    obtain ⟨statuses, hlist, hperm⟩ := hl.listed x.segs hisdir hok
    refine ⟨statuses, ?_, hperm⟩
    rw [lister, hlist]
    rfl

/-- A directory whose listing fails is labelled with that error. -/
theorem outcome_of_lister (hl : w.tree.Lists w.outcome list) (hx : x ∈ w.tree.nodes)
    (hdir : x.isdir = true) {err : HdfsError}
    (h : w.lister list (absPath x.segs) = .error err) : w.outcome x.segs = some err := by
  obtain ⟨hfailed, hlisted⟩ := lister_dir hl hx hdir
  cases houtcome : w.outcome x.segs with
  | none =>
    obtain ⟨statuses, hok, -⟩ := hlisted houtcome
    rw [hok] at h
    contradiction
  | some err' =>
    rw [hfailed err' houtcome] at h
    rw [Except.error.inj h]

/-- Pushing the listing of the children of a directory puts those children on the frontier that the
marker does not rule out. -/
theorem push_children {listing : DirListing} {children others : List Inode}
    (hafter : s.after = w.after)
    (hentries : listing.entries.Perm (children.map (Inode.entry w.mapper)))
    (hsib : Siblings listing.dirs) (hgood : ∀ c ∈ children, w.Good events c)
    (hpending : (pending s.heap).Perm (others.map (Inode.entry w.mapper))) (he : w.Events events) :
    ∃ dropped kept, children.Perm (dropped ++ kept) ∧
      (∀ c ∈ dropped, events.filter c.covers = []) ∧
      (pending (s.pushListing listing).heap).Perm ((kept ++ others).map (Inode.entry w.mapper)) := by
  obtain ⟨dropped, kept, hsplit, hbehind, hheap⟩ := SortedListing.pending_pushListing s hsib
  obtain ⟨cs, hcs, hmap⟩ := BestFirst.exists_perm_of_map_perm (hentries.symm.trans hsplit)
  obtain ⟨ds, ks, rfl, hds, hks⟩ := List.map_eq_append_iff.mp hmap
  refine ⟨ds, ks, hcs, fun c hc => ?_, ?_⟩
  · have hgc := hgood c (hcs.mem_iff.mpr (List.mem_append_left _ hc))
    apply hgc.found_eq_nil he
    intro hpass
    obtain ⟨marker, hmarker, hbeh⟩ := hbehind (c.entry w.mapper) (hds ▸ List.mem_map_of_mem hc)
    exact hpass.2 marker (hafter ▸ hmarker) hbeh
  · rw [hheap, List.map_append, hks]
    exact hpending.append_left _

/-- A popped directory that is let through is opened at its path. -/
theorem Merging.popped_dir (h : w.Merging events s frontier rest) {d path : Str}
    {heap : List Cursor} (hpop : SortedListing.Popped s.heap (.inr d) heap)
    (hpass : s.Passes (.inr d)) (hpath : s.mapper.keyToHdfsPath d = some path) :
    ∃ x others, x.isdir = true ∧ path = absPath x.segs ∧ w.Passes x ∧
      w.Taken events frontier rest heap x others := by
  obtain ⟨x, others, hentry, htaken⟩ := h.popped hpop
  rw [← hentry, h.passes_iff] at hpass
  obtain ⟨hdir, -, hpath'⟩ := htaken.good.dir_entry hentry
  rw [h.mapper, hpath'] at hpath
  exact ⟨x, others, hdir, (Option.some.inj hpath).symm, hpass, htaken⟩

/-- A directory whose listing succeeds does not fail, and the listing has its children. -/
theorem children_of_lister (hl : w.tree.Lists w.outcome list) (hx : x ∈ w.tree.nodes)
    (hdir : x.isdir = true) {listing : DirListing}
    (h : w.lister list (absPath x.segs) = .ok listing) :
    w.outcome x.segs = none ∧ ∃ statuses, listing = listingFromStatuses statuses w.mapper ∧
      statuses.Perm ((w.tree.children x.segs).map Inode.status) := by
  obtain ⟨hfailed, hlisted⟩ := lister_dir hl hx hdir
  have hok : w.outcome x.segs = none := by
    by_contra hne
    obtain ⟨err, herr⟩ := Option.ne_none_iff_exists'.mp hne
    rw [hfailed err herr] at h
    contradiction
  obtain ⟨statuses, hstatuses, hperm⟩ := hlisted hok
  exact ⟨hok, statuses, Except.ok.inj (h.symm.trans hstatuses), hperm⟩

/-- Opening a popped directory puts its children in its place, but for those without events. -/
theorem Merging.open_dir (h : w.Merging events s frontier rest) (he : w.Events events)
    (hl : w.tree.Lists w.outcome list) {heap : List Cursor} {others : List Inode}
    (htaken : w.Taken events frontier rest heap x others) (hdir : x.isdir = true)
    (hpass : w.Passes x) {listing : DirListing}
    (hlist : w.lister list (absPath x.segs) = .ok listing) :
    ∃ rest' frontier', rest = x :: rest' ∧ w.fails x = none ∧
      w.Merging events (({ s with heap } : SortedListing).pushListing listing) frontier' rest' ∧
      w.weight frontier' < w.weight frontier := by
  obtain ⟨hok, statuses, rfl, hperm⟩ := children_of_lister hl htaken.good.mem hdir hlist
  have hx := htaken.good.event hpass
  have hgood := he.good_children hx hok
  obtain ⟨hentries, hsib⟩ := Namespace.listing_children (fun c hc => (hgood c hc).addressed) hperm
  have hafter : ({ s with heap } : SortedListing).after = w.after := h.after
  obtain ⟨dropped, kept, hchildren, hnone, hpending⟩ :=
    push_children hafter hentries hsib hgood htaken.pending he
  obtain ⟨rest', hrest, hyields⟩ :=
    htaken.emit he ((he.found_perm hx).trans ((hchildren.flatMap_right _).cons x))
  rw [List.append_assoc] at hyields
  have hkept : ∀ c ∈ kept ++ others, w.Good events c := by
    intro c hc
    rcases List.mem_append.mp hc with hc | hc
    · exact hgood c (hchildren.mem_iff.mpr (List.mem_append_right _ hc))
    · exact htaken.good_others c hc
  refine ⟨rest', kept ++ others, hrest, by rw [fails, hok]; rfl,
    ⟨h.mapper, h.pre, h.after, h.seeded, h.alive, hpending, hkept, hyields.skip_all hnone⟩, ?_⟩
  have hsum := weight_perm (w := w) hchildren
  rw [weight_append] at hsum
  rw [← htaken.weight, weight_cons, weight_children htaken.good.mem, weight_append]
  omega

/-- A turn takes the next event, or a node without events, off the frontier. -/
theorem Merging.stepped (h : w.Merging events s frontier rest) (he : w.Events events)
    (hl : w.tree.Lists w.outcome list) {turn : SortedListing.Turn} {s' : SortedListing}
    {visited : List Str} (ht : SortedListing.Turned (w.lister list) s turn s' visited) :
    w.Stepped events frontier rest turn s' visited := by
  cases ht with
  | stop hnone =>
    have hempty : frontier = [] := List.map_eq_nil_iff.mp (hnone ▸ h.pending).nil_eq.symm
    exact .stop (hempty ▸ h.yields).eq_nil
  | skip hpop hskip =>
    obtain ⟨x, others, hentry, htaken⟩ := h.popped hpop
    have hpass : ¬ w.Passes x := by
      rcases hskip with hskip | ⟨d, hd, hpath⟩
      · rwa [← hentry, h.passes_iff] at hskip
      · obtain ⟨-, -, hpath'⟩ := htaken.good.dir_entry (hentry.trans hd)
        rw [h.mapper, hpath'] at hpath
        contradiction
    obtain ⟨hmerging, hweight⟩ := h.drop htaken
      (htaken.yields.skip (htaken.good.found_eq_nil he hpass))
    exact .skip hmerging hweight
  | emit hpop hpass =>
    obtain ⟨x, others, hentry, htaken⟩ := h.popped hpop
    rw [← hentry, h.passes_iff] at hpass
    obtain ⟨hfile, rfl⟩ := file_entry hentry
    obtain ⟨rest', hrest, hyields⟩ := htaken.emit_leaf he hpass (Or.inl hfile)
    obtain ⟨hmerging, hweight⟩ := h.drop htaken hyields
    exact .emit hrest hfile hmerging hweight
  | opened hpop hpass hpath hlist =>
    obtain ⟨x, others, hdir, rfl, hpass, htaken⟩ := h.popped_dir hpop hpass hpath
    obtain ⟨rest', frontier', hrest, hok, hmerging, hweight⟩ :=
      h.open_dir he hl htaken hdir hpass hlist
    exact .opened hrest hdir hok hmerging hweight
  | passed hpop hpass hpath hlist hskip =>
    obtain ⟨x, others, hdir, rfl, hpass, htaken⟩ := h.popped_dir hpop hpass hpath
    have herr := outcome_of_lister hl htaken.good.mem hdir hlist
    obtain ⟨rest', hrest, hyields⟩ := htaken.emit_leaf he hpass (Or.inr ⟨_, herr⟩)
    obtain ⟨hmerging, hweight⟩ := h.drop htaken hyields
    exact .opened hrest hdir (by simp [fails, herr, Option.filter, hskip]) hmerging hweight
  | failed hpop hpass hpath hlist hfail =>
    obtain ⟨x, others, hdir, rfl, hpass, htaken⟩ := h.popped_dir hpop hpass hpath
    have herr := outcome_of_lister hl htaken.good.mem hdir hlist
    obtain ⟨rest', hrest, -⟩ := htaken.emit_leaf he hpass (Or.inr ⟨_, herr⟩)
    exact .failed hrest hdir (by simp [fails, herr, Option.filter, hfail])

end FlatListing

end HdfsS3Gateway
