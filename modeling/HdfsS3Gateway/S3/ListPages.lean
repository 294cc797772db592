import HdfsS3Gateway.S3.Transparency
import HdfsS3Gateway.S3.TreeOutputs

/-!
# The page of a listing request

Over an unchanging, readable tree the three listing engines answer the same question. A listing has
its outputs in order, which depend on the prefix and the delimiter only; the page of a request is cut
from those after the marker. This holds for the one-directory listing of `/`, for the merge of the
whole subtree with the general paginator, and for the merge alone.
-/

namespace HdfsS3Gateway

open Interaction

/-- A gateway and an unchanging, readable directory tree that HDFS lists. -/
structure ReadableTree where
  gateway : HdfsGateway
  hdfs : StaticHdfs
  tree : Namespace
  lists : tree.Lists (fun _ => none) hdfs.list

namespace ReadableTree

variable (w : ReadableTree)

/-- The objects of the tree. -/
def objects : List ListEntry := Inode.objects w.gateway.mapper (w.tree.exposed w.gateway.mapper)

/-- The keys of the directories of the tree. -/
def dirKeys : List Str := Inode.dirKeys w.gateway.mapper (w.tree.exposed w.gateway.mapper)

/-- The outputs of a listing in order; there are none where no listing starts. -/
structure Outputs (pre : Str) (delimiter : Option Str) (outputs : List Output) : Prop where
  ascending : Ascending outputs
  mem_iff : ∀ x, x ∈ outputs ↔
    w.gateway.mapper.listStart pre ≠ none ∧ IsOutput w.objects w.dirKeys pre delimiter x

/-- The flat listing of the tree from a start. -/
def flat (args : ListArgs) (start : List Str) (plain : ∀ s ∈ start, Plain s)
    (starts : w.gateway.mapper.listStart args.pre = some (absPath start)) : FlatListing where
  tree := w.tree
  outcome _ := none
  mapper := w.gateway.mapper
  pre := args.pre
  after := args.startAfter
  start := start
  plain := plain
  starts := starts

variable {w} {pre : Str} {delimiter : Option Str} {outputs : List Output} {args : ListArgs}

theorem nodup_objects (w : ReadableTree) : (w.objects.map ListEntry.key).Nodup :=
  Namespace.nodup_objects (w.tree.nodup_nodes.filter _) fun _ hx => hx

/-- Every listing has its outputs in order. -/
theorem exists_outputs (w : ReadableTree) (pre : Str) (delimiter : Option Str) :
    ∃ outputs, w.Outputs pre delimiter outputs := by
  by_cases hstart : w.gateway.mapper.listStart pre = none
  · exact ⟨[], List.Pairwise.nil, fun x => by simp [hstart]⟩
  · obtain ⟨outputs, hasc, hmem, -⟩ :=
      exists_cut_paginate w.nodup_objects w.dirKeys pre delimiter none Nat.one_ne_zero
    exact ⟨outputs, hasc, fun x => by simp [hmem, hstart]⟩

/-- Where no listing starts there are no outputs. -/
theorem Outputs.eq_nil (h : w.Outputs pre delimiter outputs)
    (hstart : w.gateway.mapper.listStart pre = none) : outputs = [] := by
  apply List.eq_nil_iff_forall_not_mem.mpr
  intro x hx
  exact ((h.mem_iff x).mp hx).1 hstart

/-- Directories are outputs for the delimiter `/` only. -/
theorem isOutput_without_dirs {files : List ListEntry} (dirs : List Str)
    (hne : delimiter ≠ some [slash]) {x : Output} :
    IsOutput files dirs pre delimiter x ↔ IsOutput files [] pre delimiter x := by
  cases x <;> simp [IsOutput, hne]

/-- Without a delimiter the outputs are the files that start with the prefix. -/
theorem isOutput_flat {files : List ListEntry} {dirs : List Str} {x : Output} :
    IsOutput files dirs pre none x ↔ ∃ e ∈ files, pre <+: e.key ∧ .inl e = x := by
  cases x <;> simp [IsOutput]

/-! ## The delimiter `/` -/

/-- What listing a directory through the cache returns over the tree. -/
theorem eval_listDir (self : HdfsGateway) (n : StaticHdfs) (dir : Str) :
    (self.listDir dir).eval n.missing =
      (n.list dir).map fun statuses => listingFromStatuses statuses self.mapper :=
  self.eval_fetchDir n dir

/-- The merge loop over a listing with the right outputs cuts the page. -/
theorem paginateSlash_eq_cut {files : List ListEntry} {dirs : List Str} {marker : Option Str}
    (hfiles : files.Pairwise fun a b => a.key < b.key)
    (hdirs : dirs.Pairwise fun a b => dirOutput a < dirOutput b)
    (hflevel : ∀ f ∈ files, ∀ rest, f.key = pre ++ rest → slash ∉ rest)
    (hdlevel : ∀ d ∈ dirs, OnLevel pre d) (hasc : Ascending outputs)
    (hmem : ∀ x, IsOutput files dirs pre (some [slash]) x ↔ x ∈ outputs) {maxKeys : ℕ}
    (hmax : maxKeys ≠ 0) :
    paginateSlash files dirs pre marker maxKeys =
      Page.cut (retain Output.key marker outputs) maxKeys := by
  rw [paginateSlash_eq hfiles hdirs hflevel hdlevel]
  exact paginate_eq_cut (List.pairwise_map.mpr (hfiles.imp ne_of_lt)) hasc (fun x _ => hmem x) hmax

/-- Without entries there is no output. -/
theorem paginateSlash_empty {marker : Option Str} {maxKeys : ℕ} (hmax : maxKeys ≠ 0) :
    paginateSlash [] [] pre marker maxKeys = Page.cut (retain Output.key marker []) maxKeys := by
  apply paginateSlash_eq_cut List.Pairwise.nil List.Pairwise.nil
  · exact fun f hf => by contradiction
  · exact fun d hd => by contradiction
  · exact List.Pairwise.nil
  · intro x
    cases x <;> simp [IsOutput]
  · exact hmax

/-- A file that does not match the prefix is no output. -/
theorem paginateSlash_unmatched {e : ListEntry} {marker : Option Str} {maxKeys : ℕ}
    (he : ¬ pre <+: e.key) (hmax : maxKeys ≠ 0) :
    paginateSlash [e] [] pre marker maxKeys = Page.cut (retain Output.key marker []) maxKeys := by
  apply paginateSlash_eq_cut (List.pairwise_singleton _ _) List.Pairwise.nil
  · intro f hf rest hkey
    obtain rfl := List.mem_singleton.mp hf
    exact absurd ⟨rest, hkey.symm⟩ he
  · exact fun d hd => by contradiction
  · exact List.Pairwise.nil
  · intro x
    rw [iff_false_right List.not_mem_nil]
    cases x with
    | inl f =>
      rintro ⟨hf, hpre, -⟩
      exact he (List.mem_singleton.mp hf ▸ hpre)
    | inr p =>
      rintro (⟨f, hf, delim, -, -, a, b, hkey, -⟩ | ⟨-, d, hd, -⟩)
      · exact he (List.mem_singleton.mp hf ▸ ⟨_, hkey.symm⟩)
      · contradiction
  · exact hmax

/-- A listing with the entries of some nodes has their objects and directories. -/
theorem listing_members {listing : DirListing} {m : PathMapper} {cs : List Inode}
    (h : listing.entries.Perm (cs.map (Inode.entry m))) :
    (∀ e, e ∈ listing.files ↔ e ∈ Inode.objects m cs) ∧
      ∀ d, d ∈ listing.dirs ↔ d ∈ Inode.dirKeys m cs := by
  have hfile : ∀ e, e ∈ listing.files ↔ .inl e ∈ listing.entries := by
    simp [DirListing.entries, DirListing.side]
  have hdir : ∀ d, d ∈ listing.dirs ↔ .inr d ∈ listing.entries := by
    simp [DirListing.entries, DirListing.side]
  constructor
  · intro e
    rw [hfile, h.mem_iff, List.mem_map, Inode.mem_objects]
    apply exists_congr
    intro c
    cases hc : c.isdir <;> simp [Inode.entry, hc]
  · intro d
    rw [hdir, h.mem_iff, List.mem_map, Inode.mem_dirKeys]
    apply exists_congr
    intro c
    cases hc : c.isdir <;> simp [Inode.entry, hc]

/-- A listing of different nodes has its files and its directories in strict order. -/
theorem listing_sorted {listing : DirListing} {t : Namespace} {m : PathMapper} {cs : List Inode}
    (hnodup : cs.Nodup) (hcs : ∀ c ∈ cs, c ∈ t.exposed m)
    (h : listing.entries.Perm (cs.map (Inode.entry m))) :
    listing.files.Pairwise (fun a b => a.key < b.key) ∧
      listing.dirs.Pairwise fun a b => dirOutput a < dirOutput b := by
  have hkeys : (listing.entries.map outputKey).Nodup := by
    rw [(h.map outputKey).nodup_iff, List.map_map]
    apply hnodup.map_on
    intro c hc c' hc' heq
    obtain ⟨hn, haddr⟩ := Namespace.mem_exposed.mp (hcs c hc)
    obtain ⟨hn', haddr'⟩ := Namespace.mem_exposed.mp (hcs c' hc')
    exact Namespace.eq_of_segs hn hn' (Inode.segs_eq_of_sortKey haddr haddr' heq)
  rw [DirListing.entries, List.map_append, List.nodup_append] at hkeys
  obtain ⟨hfiles, hdirs, -⟩ := hkeys
  constructor
  · have hne := List.pairwise_map.mp (List.pairwise_map.mp hfiles)
    exact (listing.files_sorted.and hne).imp fun h => lt_of_le_of_ne h.1 h.2
  · have hne := List.pairwise_map.mp (List.pairwise_map.mp hdirs)
    exact (listing.dirs_sorted.and hne).imp fun h => lt_of_le_of_ne h.1 h.2

/-- A file that HDFS lists as itself is the only entry, if it has a key. -/
theorem listing_file {x : Inode} (m : PathMapper) (hplain : ∀ s ∈ x.segs, Plain s)
    (hfile : x.isdir = false) :
    (listingFromStatuses [x.status] m).dirs = [] ∧
      ((listingFromStatuses [x.status] m).files = [] ∨
        m.Addressed x.segs ∧ (listingFromStatuses [x.status] m).files = [x.object m]) := by
  by_cases haddr : m.Addressed x.segs
  · have hchild := Inode.childEntry_status haddr
    simp [listingFromStatuses, DirListing.sort, hchild, Inode.entry, hfile, haddr, List.filterMap_cons]
  · have hchild := Inode.childEntry_status_none hplain haddr
    simp [listingFromStatuses, DirListing.sort, hchild]

/-- The outputs for the delimiter `/` are those of the children of the start. -/
theorem Outputs.mem_children (hout : w.Outputs pre (some [slash]) outputs) {start : List Str}
    (hplain : ∀ s ∈ start, Plain s)
    (hstart : w.gateway.mapper.listStart pre = some (absPath start)) (x : Output) :
    IsOutput (Inode.objects w.gateway.mapper (w.tree.children start))
      (Inode.dirKeys w.gateway.mapper (w.tree.children start)) pre (some [slash]) x ↔
      x ∈ outputs := by
  rw [hout.mem_iff, hstart, ← Namespace.isOutput_children hplain hstart]
  simp [objects, dirKeys]

/-- The listing of a start directory cuts the page. -/
theorem Outputs.page_of_dir (hout : w.Outputs pre (some [slash]) outputs) {start : List Str}
    (hplain : ∀ s ∈ start, Plain s)
    (hstart : w.gateway.mapper.listStart pre = some (absPath start)) (hdir : w.tree.IsDir start)
    (marker : Option Str) {maxKeys : ℕ} (hmax : maxKeys ≠ 0) :
    ∃ statuses, w.hdfs.list (absPath start) = .ok statuses ∧
      paginateSlash (listingFromStatuses statuses w.gateway.mapper).files
        (listingFromStatuses statuses w.gateway.mapper).dirs pre marker maxKeys =
          Page.cut (retain Output.key marker outputs) maxKeys := by
  have hexposed : ∀ c ∈ w.tree.children start, c ∈ w.tree.exposed w.gateway.mapper :=
    fun c hc => Namespace.children_exposed hplain hstart hc
  obtain ⟨statuses, hlist, hperm⟩ := w.lists.listed start hdir rfl
  obtain ⟨hentries, -⟩ := Namespace.listing_children
    (fun c hc => (Namespace.mem_exposed.mp (hexposed c hc)).2) hperm
  obtain ⟨hfiles, hdirs⟩ := listing_members hentries
  obtain ⟨hfsorted, hdsorted⟩ := listing_sorted (w.tree.nodup_nodes.filter _) hexposed hentries
  obtain ⟨hflevel, hdlevel⟩ := w.tree.children_level hplain hstart
  refine ⟨statuses, hlist, ?_⟩
  apply paginateSlash_eq_cut hfsorted hdsorted _ _ hout.ascending _ hmax
  · exact fun f hf => hflevel f ((hfiles f).mp hf)
  · exact fun d hd => hdlevel d ((hdirs d).mp hd)
  · intro x
    rw [← hout.mem_children hplain hstart x]
    constructor
    · exact IsOutput.mono (fun e => (hfiles e).mp) fun d => (hdirs d).mp
    · exact IsOutput.mono (fun e => (hfiles e).mpr) fun d => (hdirs d).mpr

/-- A start that is no directory has no outputs. -/
theorem Outputs.eq_nil_of_not_dir (hout : w.Outputs pre (some [slash]) outputs) {start : List Str}
    (hplain : ∀ s ∈ start, Plain s)
    (hstart : w.gateway.mapper.listStart pre = some (absPath start)) (hdir : ¬ w.tree.IsDir start) :
    outputs = [] := by
  apply List.eq_nil_iff_forall_not_mem.mpr
  intro x hx
  have hchild := (hout.mem_children hplain hstart x).mpr hx
  rw [Namespace.children_eq_nil hdir] at hchild
  cases x <;> simp [IsOutput, Inode.objects, Inode.dirKeys] at hchild

/-- A start that is a file is listed as itself, which is no output. -/
theorem page_of_file {x : Inode} (hx : x ∈ w.tree.nodes) (hfile : x.isdir = false)
    (hstart : w.gateway.mapper.listStart pre = some (absPath x.segs)) (marker : Option Str)
    {maxKeys : ℕ} (hmax : maxKeys ≠ 0) :
    paginateSlash (listingFromStatuses [x.status] w.gateway.mapper).files
      (listingFromStatuses [x.status] w.gateway.mapper).dirs pre marker maxKeys =
        Page.cut (retain Output.key marker []) maxKeys := by
  have hplain := w.tree.plain x hx
  obtain ⟨hdirs, hfiles | ⟨haddr, hfiles⟩⟩ := listing_file w.gateway.mapper hplain hfile
  · rw [hdirs, hfiles]
    exact paginateSlash_empty hmax
  · -- a listing starts strictly above what its prefix matches
    have hnone : ¬ pre <+: w.gateway.mapper.keyOf x.segs := fun hpre =>
      (PathMapper.listStart_above hplain hstart haddr hpre).2.1 rfl
    rw [hdirs, hfiles]
    exact paginateSlash_unmatched hnone hmax

/-- The one listing for `/` cuts the page. -/
theorem eval_pageSlash (hout : w.Outputs args.pre (some [slash]) outputs) (hmax : args.maxKeys ≠ 0) :
    (w.gateway.pageSlash args).eval w.hdfs.missing =
      .ok (Page.cut (retain Output.key args.startAfter outputs) args.maxKeys) := by
  unfold HdfsGateway.pageSlash HdfsGateway.listStartDir
  rw [Prog.eval_bind]
  cases hstart : w.gateway.mapper.listStart args.pre with
  | none =>
    rw [hout.eq_nil hstart]
    exact congrArg Except.ok (paginateSlash_empty hmax)
  | some path =>
    obtain ⟨start, hplain, rfl, -⟩ := w.gateway.mapper.listStart_eq_some hstart
    simp only [eval_listDir]
    by_cases hdir : w.tree.IsDir start
    · obtain ⟨statuses, hlist, hpage⟩ :=
        hout.page_of_dir hplain hstart hdir args.startAfter hmax
      rw [hlist]
      exact congrArg Except.ok hpage
    · rw [hout.eq_nil_of_not_dir hplain hstart hdir]
      by_cases hfile : ∃ x ∈ w.tree.nodes, x.segs = start
      · obtain ⟨x, hx, rfl⟩ := hfile
        have hxfile : x.isdir = false :=
          Bool.eq_false_iff.mpr fun hxdir => hdir (Or.inr ⟨x, hx, rfl, hxdir⟩)
        rw [w.lists.file x hx hxfile]
        exact congrArg Except.ok (page_of_file hx hxfile hstart args.startAfter hmax)
      · have htop : start ≠ [] := fun h => hdir (Or.inl h)
        obtain ⟨path, hpath⟩ := w.lists.missing start hplain htop
          fun x hx hsegs => hfile ⟨x, hx, hsegs⟩
        rw [hpath]
        exact congrArg Except.ok (paginateSlash_empty hmax)

/-! ## The merge of the subtree -/

/-- The entries of a recursive listing come from the engine on the flat listing of the tree. -/
theorem eval_collectFlat {start : List Str} (hplain : ∀ s ∈ start, Plain s)
    (hstart : w.gateway.mapper.listStart args.pre = some (absPath start)) (fuel : ℕ)
    (limit : Option ℕ) {collected : List ListEntry × Bool}
    (h : ((w.flat args start hplain hstart).fresh.collectPage fuel limit).eval
      ((w.flat args start hplain hstart).lister w.hdfs.list) = .ok collected) :
    (w.gateway.collectFlat fuel args limit).eval w.hdfs.missing = .ok collected := by
  have hlister : (fun dir => (w.gateway.listDir dir).eval w.hdfs.missing) =
      (w.flat args start hplain hstart).lister w.hdfs.list :=
    funext fun dir => eval_listDir w.gateway w.hdfs dir
  unfold HdfsGateway.collectFlat
  rw [hstart]
  simp only []
  rw [Prog.eval_bind, Prog.eval_handle, hlister]
  have hrun : ((SortedListing.new (absPath start) args.pre args.startAfter
      w.gateway.mapper).collectPage fuel limit).eval
      ((w.flat args start hplain hstart).lister w.hdfs.list) = .ok collected := h
  rw [hrun]
  rfl

/-- Where no listing starts nothing is collected. -/
theorem eval_collectFlat_none (hstart : w.gateway.mapper.listStart args.pre = none) (fuel : ℕ)
    (limit : Option ℕ) :
    (w.gateway.collectFlat fuel args limit).eval w.hdfs.missing = .ok ([], false) := by
  unfold HdfsGateway.collectFlat
  rw [hstart]
  rfl

/-- The general paginator over the merge of the subtree cuts the page. -/
theorem eval_pageDelimiter (hout : w.Outputs args.pre args.delimiter outputs)
    (hdelim : args.delimiter ≠ some [slash]) (hmax : args.maxKeys ≠ 0) {fuel : ℕ}
    (hfuel : w.tree.nodes.length < fuel) :
    (w.gateway.pageDelimiter fuel args).eval w.hdfs.missing =
      .ok (Page.cut (retain Output.key args.startAfter outputs) args.maxKeys) := by
  unfold HdfsGateway.pageDelimiter HdfsGateway.collectAll
  rw [Prog.eval_bind, if_neg hmax]
  cases hstart : w.gateway.mapper.listStart args.pre with
  | none =>
    rw [eval_collectFlat_none hstart, hout.eq_nil hstart]
    apply congrArg Except.ok
    apply paginate_eq_cut _ List.Pairwise.nil _ hmax
    · exact List.nodup_nil
    · intro x _
      cases x <;> simp [IsOutput]
  | some path =>
    obtain ⟨start, hplain, rfl, -⟩ := w.gateway.mapper.listStart_eq_some hstart
    obtain ⟨selected, hs⟩ := (w.flat args start hplain hstart).exists_selection
    rw [eval_collectFlat hplain hstart fuel none
      (FlatListing.collectPage_all (fun _ => rfl) w.lists hs hfuel)]
    apply congrArg Except.ok
    apply paginate_eq_cut _ hout.ascending _ hmax
    · rw [List.map_map]
      exact List.pairwise_map.mpr (hs.keys_sorted.imp ne_of_lt)
    · intro x hx
      rw [hout.mem_iff, hstart, isOutput_without_dirs w.dirKeys hdelim]
      simp only [ne_eq, reduceCtorEq, not_false_eq_true, true_and]
      exact FlatListing.isOutput_selected (fun _ => rfl) hs args.delimiter hx

/-- Without a delimiter the outputs after the marker are the selected files. -/
theorem Outputs.retain_eq (hout : w.Outputs args.pre none outputs) {start : List Str}
    (hplain : ∀ s ∈ start, Plain s)
    (hstart : w.gateway.mapper.listStart args.pre = some (absPath start)) {selected : List Inode}
    (hs : (w.flat args start hplain hstart).Selection selected) :
    retain Output.key args.startAfter outputs =
      (selected.map (Inode.object w.gateway.mapper)).map Sum.inl := by
  apply Ascending.ext (retain_sorted _ hout.ascending)
  · rw [Ascending, List.map_map]
    exact List.pairwise_map.mpr hs.keys_sorted
  · intro x
    rw [mem_retain, hout.mem_iff, hstart, isOutput_flat, List.mem_map]
    constructor
    · rintro ⟨⟨-, e, he, hpre, rfl⟩, hmarker⟩
      obtain ⟨y, hy, hfile, rfl⟩ := Inode.mem_objects.mp he
      have hsel : (w.flat args start hplain hstart).Selected y :=
        (FlatListing.selected_iff fun _ => rfl).mpr ⟨hy, hfile, hpre, hmarker⟩
      exact ⟨_, List.mem_map_of_mem ((hs.mem_iff y).mpr hsel), rfl⟩
    · rintro ⟨e, he, rfl⟩
      obtain ⟨y, hy, rfl⟩ := List.mem_map.mp he
      obtain ⟨hy, hfile, hpre, hmarker⟩ :=
        (FlatListing.selected_iff fun _ => rfl).mp ((hs.mem_iff y).mp hy)
      exact ⟨⟨by simp, _, Inode.mem_objects.mpr ⟨y, hy, hfile, rfl⟩, hpre, rfl⟩, hmarker⟩

/-- The merge alone cuts the page of a listing without a delimiter. -/
theorem eval_pageFlat (hout : w.Outputs args.pre none outputs) (hmax : args.maxKeys ≠ 0) {fuel : ℕ}
    (hfuel : w.tree.nodes.length < fuel) :
    (w.gateway.pageFlat fuel args).eval w.hdfs.missing =
      .ok (Page.cut (retain Output.key args.startAfter outputs) args.maxKeys) := by
  unfold HdfsGateway.pageFlat
  rw [Prog.eval_bind]
  cases hstart : w.gateway.mapper.listStart args.pre with
  | none =>
    have hnil : retain Output.key args.startAfter [] = [].map Sum.inl := by
      cases args.startAfter <;> rfl
    rw [eval_collectFlat_none hstart, hout.eq_nil hstart, hnil, Page.cut_files]
    simp [Except.map]
  | some path =>
    obtain ⟨start, hplain, rfl, -⟩ := w.gateway.mapper.listStart_eq_some hstart
    obtain ⟨selected, hs⟩ := (w.flat args start hplain hstart).exists_selection
    obtain ⟨events, he⟩ := (w.flat args start hplain hstart).exists_events
    have hmaxPos : 1 ≤ args.maxKeys := Nat.one_le_iff_ne_zero.mpr hmax
    rcases FlatListing.page_of_startListed hs he w.lists (Or.inr rfl) hfuel hmaxPos with
      hpage | ⟨err, -, ⟨-, hcon, -⟩ | ⟨_, -, -, hcon, -⟩⟩
    · rw [eval_collectFlat hplain hstart fuel (some args.maxKeys) hpage]
      rw [hout.retain_eq hplain hstart hs, Page.cut_files, List.length_map, ← List.map_take]
      apply congrArg Except.ok
      simp only [decide_eq_true_eq]
      rfl
    · contradiction
    · contradiction

/-- A page of a request is cut from the outputs of the listing after the marker. -/
theorem eval_listPage (hout : w.Outputs args.pre args.delimiter outputs) (hmax : args.maxKeys ≠ 0)
    {fuel : ℕ} (hfuel : w.tree.nodes.length < fuel) :
    (w.gateway.listPage fuel args).eval w.hdfs.missing =
      .ok (Page.cut (retain Output.key args.startAfter outputs) args.maxKeys) := by
  unfold HdfsGateway.listPage
  split
  · rename_i hslash
    exact eval_pageSlash (hslash ▸ hout) hmax
  · rename_i hslash
    split
    · exact eval_pageDelimiter hout hslash hmax hfuel
    · rename_i hnone
      exact eval_pageFlat (Option.not_isSome_iff_eq_none.mp hnone ▸ hout) hmax hfuel

end ReadableTree

end HdfsS3Gateway
