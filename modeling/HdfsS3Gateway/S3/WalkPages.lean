import HdfsS3Gateway.S3.WalkTurns

/-!
# A page of the engine on the events

A pull takes the events up to the next file, and a page is as many pulls as it has files, with one
more to see whether the listing goes on. The engine thereby refines `collect` on the events in
order: the same page or error, and the same directories opened in the same order. The number of
nodes of the tree bounds the turns.
-/

namespace HdfsS3Gateway

open Interaction Lexicographic

namespace FlatListing

variable {w : FlatListing} {x y : Inode} {events : List Inode}
  {list : Str → Except HdfsError (List FileStatus)} {s : SortedListing} {frontier rest : List Inode}

/-! ## The loops -/

/-- Directories that the listing opens and goes on from. -/
def Opened (w : FlatListing) (dirs : List Inode) : Prop :=
  ∀ d ∈ dirs, d.isdir = true ∧ w.fails d = none

theorem opened_nil (w : FlatListing) : w.Opened [] := fun _ hd => by contradiction

/-- Opened directories only add to the directories visited. -/
theorem collect_opened {dirs : List Inode} (hdirs : w.Opened dirs) (limit : Option ℕ)
    (rest : List Inode) (page : List ListEntry) :
    w.collect limit (dirs ++ rest) page =
      ((w.collect limit rest page).1, dirs.map Inode.segs ++ (w.collect limit rest page).2) := by
  induction dirs with
  | nil => rfl
  | cons d dirs ih =>
    obtain ⟨hdir, hok⟩ := hdirs d List.mem_cons_self
    have htail := ih fun x hx => hdirs x (List.mem_cons_of_mem _ hx)
    rw [List.cons_append, collect, if_pos hdir, hok, htail]
    rfl

/-- The next file is returned, or only noticed when the page is full. -/
theorem collect_file {dirs rest : List Inode} (hdirs : w.Opened dirs) (hfile : x.isdir = false)
    (limit : Option ℕ) (page : List ListEntry) :
    w.collect limit (dirs ++ x :: rest) page =
      if some page.length = limit then (.ok (page, true), dirs.map Inode.segs)
      else ((w.collect limit rest (page ++ [x.object w.mapper])).1,
        dirs.map Inode.segs ++ (w.collect limit rest (page ++ [x.object w.mapper])).2) := by
  rw [collect_opened hdirs, collect, hfile]
  simp only [Bool.false_eq_true, if_false]
  split <;> simp

/-- Without another file the page ends the listing. -/
theorem collect_done {dirs : List Inode} (hdirs : w.Opened dirs) (limit : Option ℕ)
    (page : List ListEntry) :
    w.collect limit dirs page = (.ok (page, false), dirs.map Inode.segs) := by
  have happend := collect_opened hdirs limit [] page
  rwa [List.append_nil, collect, List.append_nil] at happend

/-- A directory that fails ends the listing with its error. -/
theorem collect_failed {dirs rest : List Inode} {err : HdfsError} (hdirs : w.Opened dirs)
    (hdir : x.isdir = true) (hfails : w.fails x = some err) (limit : Option ℕ)
    (page : List ListEntry) :
    w.collect limit (dirs ++ x :: rest) page = (.error err, (dirs ++ [x]).map Inode.segs) := by
  rw [collect_opened hdirs, collect, if_pos hdir, hfails]
  simp

/-- What a pull does to the events that are still to come. -/
inductive Pulled (w : FlatListing) (events frontier rest : List Inode) :
    Except ListError (Option ListEntry) → SortedListing → List Str → Prop
  | file {s' frontier' dirs x rest'} (hrest : rest = dirs ++ x :: rest') (hdirs : w.Opened dirs)
      (hfile : x.isdir = false) (hmerging : w.Merging events s' frontier' rest')
      (hweight : w.weight frontier' < w.weight frontier) :
      Pulled w events frontier rest (.ok (some (x.object w.mapper))) s'
        (dirs.map fun d => absPath d.segs)
  | done {s'} (hdirs : w.Opened rest) :
      Pulled w events frontier rest (.ok none) s' (rest.map fun d => absPath d.segs)
  | failed {s' dirs x rest' err} (hrest : rest = dirs ++ x :: rest') (hdirs : w.Opened dirs)
      (hdir : x.isdir = true) (hfails : w.fails x = some err) :
      Pulled w events frontier rest (.error (.upstream err)) s'
        ((dirs ++ [x]).map fun d => absPath d.segs)

/-- A pull that follows an opened directory. -/
theorem Pulled.cons {frontier' rest' : List Inode} {result : Except ListError (Option ListEntry)}
    {s' : SortedListing} {visited : List Str} (h : w.Pulled events frontier' rest' result s' visited)
    (hdir : x.isdir = true) (hok : w.fails x = none)
    (hweight : w.weight frontier' < w.weight frontier) :
    w.Pulled events frontier (x :: rest') result s' (absPath x.segs :: visited) := by
  have hopened : ∀ {dirs}, w.Opened dirs → w.Opened (x :: dirs) := by
    intro dirs hdirs d hd
    rcases List.mem_cons.mp hd with rfl | hd
    · exact ⟨hdir, hok⟩
    · exact hdirs d hd
  cases h with
  | @file _ _ dirs y rest'' hrest hdirs hfile hmerging hw =>
    have hrest' : x :: rest' = (x :: dirs) ++ y :: rest'' := by rw [hrest, List.cons_append]
    exact .file hrest' (hopened hdirs) hfile hmerging (hw.trans hweight)
  | done hdirs => exact .done (hopened hdirs)
  | @failed _ dirs y rest'' err hrest hdirs hfdir hfails =>
    have hrest' : x :: rest' = (x :: dirs) ++ y :: rest'' := by rw [hrest, List.cons_append]
    exact .failed hrest' (hopened hdirs) hfdir hfails

/-- A pull that follows a turn without an event. -/
theorem Pulled.mono {frontier' : List Inode} {result : Except ListError (Option ListEntry)}
    {s' : SortedListing} {visited : List Str} (h : w.Pulled events frontier' rest result s' visited)
    (hweight : w.weight frontier' < w.weight frontier) :
    w.Pulled events frontier rest result s' visited := by
  cases h with
  | file hrest hdirs hfile hmerging hw => exact .file hrest hdirs hfile hmerging (hw.trans hweight)
  | done hdirs => exact .done hdirs
  | failed hrest hdirs hdir hfails => exact .failed hrest hdirs hdir hfails

/-- With enough fuel, the loop of a pull takes events up to the next file. -/
theorem Merging.pulled (h : w.Merging events s frontier rest) (he : w.Events events)
    (hl : w.tree.Lists w.outcome list) {fuel : ℕ} (hfuel : w.weight frontier < fuel) :
    w.Pulled events frontier rest ((SortedListing.nextLoop fuel s).eval (w.lister list)).1
      ((SortedListing.nextLoop fuel s).eval (w.lister list)).2
      ((SortedListing.nextLoop fuel s).trace (w.lister list)) := by
  induction fuel generalizing s frontier rest with
  | zero => contradiction
  | succ fuel ih =>
    have hstep := h.stepped he hl (SortedListing.turn_turned (w.lister list) s)
    rw [SortedListing.nextLoop]
    simp only [Prog.eval_bind, Prog.trace_bind]
    generalize s.turn.eval (w.lister list) = out at hstep ⊢
    generalize s.turn.trace (w.lister list) = visited at hstep ⊢
    obtain ⟨turn, s'⟩ := out
    cases hstep with
    | stop hrest =>
      rw [hrest]
      exact .done (opened_nil w)
    | skip hmerging hweight =>
      exact (ih hmerging (by omega)).mono hweight
    | emit hrest hfile hmerging hweight =>
      exact .file hrest (opened_nil w) hfile hmerging hweight
    | opened hrest hdir hok hmerging hweight =>
      rw [hrest]
      exact (ih hmerging (by omega)).cons hdir hok hweight
    | failed hrest hdir hfails => exact .failed hrest (opened_nil w) hdir hfails

/-- A seeded engine pulls from its heap. -/
theorem Merging.nextEntry_eq (h : w.Merging events s frontier rest) (fuel : ℕ) :
    SortedListing.nextEntry fuel s = SortedListing.nextLoop fuel s := by
  rw [SortedListing.nextEntry, if_neg (by simp [h.alive]), if_pos h.seeded]

/-- The result of a page as the engine reports it. -/
def toResult (r : Except HdfsError (List ListEntry × Bool)) :
    Except ListError (List ListEntry × Bool) := r.mapError .upstream

/-- With enough fuel, the loop of a page works off the events that are still to come. -/
theorem Merging.collected (h : w.Merging events s frontier rest) (he : w.Events events)
    (hl : w.tree.Lists w.outcome list) {fuel rounds : ℕ} (hfuel : w.weight frontier < fuel)
    (hrounds : w.weight frontier < rounds) (limit : Option ℕ) (page : List ListEntry) :
    (SortedListing.collectLoop fuel limit rounds s page).eval (w.lister list) =
        toResult (w.collect limit rest page).1 ∧
      (SortedListing.collectLoop fuel limit rounds s page).trace (w.lister list) =
        (w.collect limit rest page).2.map absPath := by
  induction rounds generalizing s frontier rest page with
  | zero => contradiction
  | succ rounds ih =>
    have hpull := h.pulled he hl hfuel
    rw [SortedListing.collectLoop, h.nextEntry_eq]
    split
    all_goals
      rename_i hfull
      simp only [Prog.eval_bind, Prog.trace_bind]
      generalize (SortedListing.nextLoop fuel s).eval (w.lister list) = out at hpull ⊢
      generalize (SortedListing.nextLoop fuel s).trace (w.lister list) = visited at hpull ⊢
      obtain ⟨result, s'⟩ := out
    · -- the page is full, and the pull is the probe for another file
      cases hpull with
      | file hrest hdirs hfile hmerging hweight =>
        rw [hrest, collect_file hdirs hfile, if_pos hfull]
        exact ⟨rfl, by simp [Prog.trace]⟩
      | done hdirs =>
        rw [collect_done hdirs]
        exact ⟨rfl, by simp [Prog.trace]⟩
      | failed hrest hdirs hdir hfails =>
        rw [hrest, collect_failed hdirs hdir hfails]
        exact ⟨rfl, by simp [Prog.trace]⟩
    · cases hpull with
      | file hrest hdirs hfile hmerging hweight =>
        rw [hrest, collect_file hdirs hfile, if_neg hfull]
        obtain ⟨heval, htrace⟩ := ih hmerging (by omega) (by omega) (page ++ [_])
        exact ⟨heval, by rw [List.map_append, ← htrace]; simp⟩
      | done hdirs =>
        rw [collect_done hdirs]
        exact ⟨rfl, by simp [Prog.trace]⟩
      | failed hrest hdirs hdir hfails =>
        rw [hrest, collect_failed hdirs hdir hfails]
        exact ⟨rfl, by simp [Prog.trace]⟩

/-! ## A whole page -/

/-- A fresh engine for the listing. -/
def fresh (w : FlatListing) : SortedListing := .new (absPath w.start) w.pre w.after w.mapper

/-- The engine after the start was listed. -/
def seeded (w : FlatListing) (listing : DirListing) : SortedListing :=
  { w.fresh with startSeeded := true }.pushListing listing

/-- The start can be listed, or is no directory. -/
def StartListed (w : FlatListing) : Prop := ¬ w.tree.IsDir w.start ∨ w.outcome w.start = none

/-- Below a path that is no directory there are no events. -/
theorem Events.eq_nil (he : w.Events events) (hstart : ¬ w.tree.IsDir w.start) : events = [] := by
  apply List.eq_nil_iff_forall_not_mem.mpr
  intro x hx
  have hxe := (he.mem_iff x).mp hx
  apply hstart
  by_cases htop : w.start = []
  · exact Or.inl htop
  · exact Or.inr (w.tree.above x hxe.mem w.start htop hxe.above hxe.ne_start)

/-- Seeding puts those children on the frontier that the marker does not rule out. -/
theorem merging_seeded {listing : DirListing} {children : List Inode} (he : w.Events events)
    (hentries : listing.entries.Perm (children.map (Inode.entry w.mapper)))
    (hsib : Siblings listing.dirs) (hgood : ∀ c ∈ children, w.Good events c)
    (hfound : (children.flatMap fun c => events.filter c.covers).Perm events) :
    ∃ frontier, w.Merging events (w.seeded listing) frontier events ∧
      w.weight frontier ≤ w.weight children := by
  have hafter : ({ w.fresh with startSeeded := true } : SortedListing).after = w.after := rfl
  have hempty : (pending ({ w.fresh with startSeeded := true } : SortedListing).heap).Perm
      (([] : List Inode).map (Inode.entry w.mapper)) := List.Perm.refl _
  obtain ⟨dropped, kept, hchildren, hnone, hpending⟩ :=
    push_children hafter hentries hsib hgood hempty he
  have hyields : BestFirst.Yields (fun x => events.filter x.covers) (Inode.sortKey w.mapper)
      (dropped ++ kept) events := ⟨he.sorted, (hchildren.symm.flatMap_right _).trans hfound⟩
  rw [List.append_nil] at hpending
  refine ⟨kept, ⟨rfl, rfl, rfl, rfl, rfl, hpending, fun c hc => ?_, hyields.skip_all hnone⟩, ?_⟩
  · exact hgood c (hchildren.mem_iff.mpr (List.mem_append_right _ hc))
  · have hsum := weight_perm (w := w) hchildren
    rw [weight_append] at hsum
    omega

/-- A start that can be listed seeds the engine with all events. -/
theorem merging_seeded_dir (he : w.Events events) (hl : w.tree.Lists w.outcome list)
    (hdir : w.tree.IsDir w.start) (hok : w.outcome w.start = none) :
    ∃ listing frontier, w.lister list (absPath w.start) = .ok listing ∧
      w.Merging events (w.seeded listing) frontier events ∧
      w.weight frontier ≤ w.tree.nodes.length := by
  obtain ⟨statuses, hlist, hperm⟩ := hl.listed w.start hdir hok
  have hgood := he.good_start
  obtain ⟨hentries, hsib⟩ := Namespace.listing_children (fun c hc => (hgood c hc).addressed) hperm
  obtain ⟨kept, hmerging, hweight⟩ := merging_seeded he hentries hsib hgood he.found_start
  refine ⟨_, kept, ?_, hmerging, hweight.trans ?_⟩
  · rw [lister, hlist]
    rfl
  · rw [weight,
      ← (Namespace.filter_below_perm w.tree.nodup_nodes (fun _ h => h) w.start).length_eq]
    exact List.length_filter_le _ _

/-- A file is no directory. -/
theorem not_isDir_file (hx : x ∈ w.tree.nodes) (hsegs : x.segs = w.start) (hfile : x.isdir = false) :
    ¬ w.tree.IsDir w.start := by
  rintro (htop | ⟨d, hd, hdsegs, hdir⟩)
  · exact w.tree.ne_top x hx (hsegs.trans htop)
  · rw [Namespace.eq_of_segs hd hx (hdsegs.trans hsegs.symm), hfile] at hdir
    contradiction

/-- A start that is a file is listed as itself, and puts no event on the frontier. -/
theorem merging_seeded_file (he : w.Events events) (hl : w.tree.Lists w.outcome list)
    (hx : x ∈ w.tree.nodes) (hsegs : x.segs = w.start) (hfile : x.isdir = false) :
    ∃ listing frontier, w.lister list (absPath w.start) = .ok listing ∧
      w.Merging events (w.seeded listing) frontier events ∧
      w.weight frontier ≤ w.tree.nodes.length := by
  have hnone : events = [] := he.eq_nil (not_isDir_file hx hsegs hfile)
  suffices hchildren : ∃ children : List Inode,
      (listingFromStatuses [x.status] w.mapper).entries.Perm
        (children.map (Inode.entry w.mapper)) ∧
      (listingFromStatuses [x.status] w.mapper).dirs = [] ∧
      (∀ c ∈ children, w.Good events c) ∧ w.weight children ≤ w.tree.nodes.length by
    obtain ⟨children, hentries, hdirs, hgood, hle⟩ := hchildren
    have hfound : (children.flatMap fun c => events.filter c.covers).Perm events := by
      simp [hnone]
    obtain ⟨frontier, hmerging, hweight⟩ :=
      merging_seeded he hentries (hdirs ▸ List.Pairwise.nil) hgood hfound
    refine ⟨_, frontier, ?_, hmerging, hweight.trans hle⟩
    rw [lister, ← hsegs, hl.file x hx hfile]
    rfl
  by_cases haddr : w.mapper.Addressed x.segs
  · have hchild := Inode.childEntry_status haddr
    refine ⟨[x], ?_, ?_, ?_, ?_⟩
    · have hentries := Namespace.entries_listingFromStatuses [x.status] w.mapper
      rwa [List.filterMap_cons, hchild] at hentries
    · simp [listingFromStatuses, DirListing.sort, hchild, Inode.entry, hfile, List.filterMap_cons]
    · intro c hc
      obtain rfl := List.mem_singleton.mp hc
      refine ⟨hx, haddr, fun hdir => ?_, fun hpass => ?_⟩
      · rw [hfile] at hdir
        contradiction
      · -- a listing starts strictly above what its prefix matches
        obtain ⟨-, hne, -⟩ := PathMapper.listStart_above w.plain w.starts haddr hpass.1
        exact absurd hsegs.symm hne
    · rw [weight_cons]
      exact List.length_filter_le _ _
  · have hchild := Inode.childEntry_status_none (w.tree.plain x hx) haddr
    refine ⟨[], ?_, ?_, fun c hc => by contradiction, Nat.zero_le _⟩
    · have hentries := Namespace.entries_listingFromStatuses [x.status] w.mapper
      rwa [List.filterMap_cons, hchild] at hentries
    · simp [listingFromStatuses, DirListing.sort, hchild]

/-- The first pull of a fresh engine lists the start and goes on as a seeded engine. -/
theorem nextEntry_fresh {listing : DirListing} {frontier rest : List Inode}
    (hlist : w.lister list (absPath w.start) = .ok listing)
    (hm : w.Merging events (w.seeded listing) frontier rest) (fuel : ℕ) :
    (SortedListing.nextEntry fuel w.fresh).eval (w.lister list) =
        (SortedListing.nextEntry fuel (w.seeded listing)).eval (w.lister list) ∧
      (SortedListing.nextEntry fuel w.fresh).trace (w.lister list) =
        absPath w.start ::
          (SortedListing.nextEntry fuel (w.seeded listing)).trace (w.lister list) := by
  have halive : (w.fresh.exhausted = true) = False := by simp [fresh, SortedListing.new]
  have hunseeded : (w.fresh.startSeeded = true) = False := by simp [fresh, SortedListing.new]
  have hstart : w.fresh.start = absPath w.start := rfl
  rw [hm.nextEntry_eq, SortedListing.nextEntry]
  simp only [halive, hunseeded, if_false, SortedListing.seed, Prog.perform_bind, Prog.call_bind,
    Prog.eval_call, Prog.trace, hstart, hlist, Prog.pure_eq_ret, Prog.ret_bind]
  exact ⟨rfl, rfl⟩

/-- A page over a start that is listed. -/
theorem collectPage_seeded {listing : DirListing} {frontier : List Inode} (he : w.Events events)
    (hl : w.tree.Lists w.outcome list) (hlist : w.lister list (absPath w.start) = .ok listing)
    (hm : w.Merging events (w.seeded listing) frontier events) {fuel : ℕ}
    (hfuel : w.weight frontier < fuel) {limit : Option ℕ} (hlimit : limit ≠ some 0) :
    (w.fresh.collectPage fuel limit).eval (w.lister list) = toResult (w.collect limit events []).1 ∧
      (w.fresh.collectPage fuel limit).trace (w.lister list) =
        absPath w.start :: (w.collect limit events []).2.map absPath := by
  obtain ⟨rounds, rfl⟩ : ∃ rounds, fuel = rounds + 1 := ⟨fuel - 1, by omega⟩
  obtain ⟨heval, htrace⟩ := nextEntry_fresh hlist hm (rounds + 1)
  have hcollect := hm.collected he hl hfuel hfuel limit []
  have hnotfull : ¬ some ([] : List ListEntry).length = limit := fun h => hlimit h.symm
  rw [SortedListing.collectPage, if_neg hlimit]
  rw [SortedListing.collectLoop, if_neg hnotfull] at hcollect ⊢
  simp only [Prog.eval_bind, Prog.trace_bind] at hcollect ⊢
  rw [heval, htrace, List.cons_append, hcollect.1, hcollect.2]
  exact ⟨rfl, rfl⟩

/-- The page over a start whose listing fails: a missing start is an empty listing. -/
def startError : HdfsError → Except ListError (List ListEntry × Bool)
  | .fileNotFound _ => .ok ([], false)
  | err => .error (.upstream err)

/-- The first reply of a fresh engine ends the page when the start cannot be listed. -/
theorem collectPage_unlisted {err : HdfsError} (hlist : w.lister list (absPath w.start) = .error err)
    {fuel : ℕ} (hfuel : 0 < fuel) {limit : Option ℕ} (hlimit : limit ≠ some 0) :
    (w.fresh.collectPage fuel limit).eval (w.lister list) = startError err ∧
      (w.fresh.collectPage fuel limit).trace (w.lister list) = [absPath w.start] := by
  obtain ⟨rounds, rfl⟩ : ∃ rounds, fuel = rounds + 1 := ⟨fuel - 1, by omega⟩
  have halive : (w.fresh.exhausted = true) = False := by simp [fresh, SortedListing.new]
  have hunseeded : (w.fresh.startSeeded = true) = False := by simp [fresh, SortedListing.new]
  have hstart : w.fresh.start = absPath w.start := rfl
  have hnotfull : ¬ some ([] : List ListEntry).length = limit := fun h => hlimit h.symm
  rw [SortedListing.collectPage, if_neg hlimit, SortedListing.collectLoop, if_neg hnotfull]
  simp only [SortedListing.nextEntry, halive, hunseeded, if_false, SortedListing.seed,
    Prog.perform_bind, Prog.call_bind, Prog.eval_call, Prog.trace, hstart, hlist]
  cases err <;> exact ⟨rfl, rfl⟩

/-- The engine refines the events: over a start that can be listed, or is no directory, a page of
the engine is the page of `collect` on the events in order, and opens the same directories. -/
theorem collectPage_refines (he : w.Events events) (hl : w.tree.Lists w.outcome list)
    (hstart : w.StartListed) {fuel : ℕ} (hfuel : w.tree.nodes.length < fuel) {limit : Option ℕ}
    (hlimit : limit ≠ some 0) :
    (w.fresh.collectPage fuel limit).eval (w.lister list) = toResult (w.collect limit events []).1 ∧
      (w.fresh.collectPage fuel limit).trace (w.lister list) =
        absPath w.start :: (w.collect limit events []).2.map absPath := by
  by_cases hdir : w.tree.IsDir w.start
  · obtain ⟨listing, frontier, hlist, hm, hweight⟩ :=
      merging_seeded_dir he hl hdir (hstart.resolve_left (not_not_intro hdir))
    exact collectPage_seeded he hl hlist hm (by omega) hlimit
  · by_cases hfile : ∃ x ∈ w.tree.nodes, x.segs = w.start
    · obtain ⟨x, hx, hsegs⟩ := hfile
      have hxfile : x.isdir = false :=
        Bool.eq_false_iff.mpr fun hxdir => hdir (Or.inr ⟨x, hx, hsegs, hxdir⟩)
      obtain ⟨listing, frontier, hlist, hm, hweight⟩ := merging_seeded_file he hl hx hsegs hxfile
      exact collectPage_seeded he hl hlist hm (by omega) hlimit
    · -- nothing is there
      have htop : w.start ≠ [] := fun h => hdir (Or.inl h)
      obtain ⟨path, hpath⟩ := hl.missing w.start w.plain htop
        fun x hx hsegs => hfile ⟨x, hx, hsegs⟩
      have hlist : w.lister list (absPath w.start) = .error (.fileNotFound path) := by
        rw [lister, hpath]
        rfl
      obtain ⟨heval, htrace⟩ := collectPage_unlisted hlist (by omega : 0 < fuel) hlimit
      rw [heval, htrace, he.eq_nil hdir]
      exact ⟨rfl, rfl⟩

end FlatListing

end HdfsS3Gateway
