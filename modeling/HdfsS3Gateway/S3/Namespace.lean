import HdfsS3Gateway.Core.KeyRoundTrip
import HdfsS3Gateway.Core.Outputs
import HdfsS3Gateway.Library.BestFirst
import HdfsS3Gateway.S3.Frontier

/-!
# Directory trees

A finite tree of files and directories, as a table of paths in which every directory above a node is
listed too. A directory is listed in any order, or fails with the error that a labelling gives it.

The entries of a listing are then those of the children, and what lies below a directory lies at or
below exactly one child, which is how a directory on the frontier is replaced by its children.
-/

namespace HdfsS3Gateway

open Lexicographic

/-! ## Nodes -/

/-- A file or a directory, with the segments of its path. -/
structure Inode where
  segs : List Str
  isdir : Bool
  length : UInt64
  modificationTime : UInt64
  deriving DecidableEq, Repr

namespace Inode

/-- The node as the NameNode reports it. -/
def status (x : Inode) : FileStatus := ⟨absPath x.segs, x.length, x.isdir, x.modificationTime⟩

/-- The object that a file is listed as. -/
def object (m : PathMapper) (x : Inode) : ListEntry := ⟨m.keyOf x.segs, x.length, x.modificationTime⟩

/-- The entry of a node in the listing of its directory. -/
def entry (m : PathMapper) (x : Inode) : ListEntry ⊕ Str :=
  if x.isdir then .inr (m.keyOf x.segs) else .inl (x.object m)

/-- The key that a node is ordered by. -/
def sortKey (m : PathMapper) (x : Inode) : Str := outputKey (x.entry m)

/-- A node lies at or below another one. -/
def covers (x y : Inode) : Bool := x.segs.isPrefixOf y.segs

theorem covers_iff {x y : Inode} : x.covers y = true ↔ x.segs <+: y.segs := List.isPrefixOf_iff_prefix

theorem sortKey_file {m : PathMapper} {x : Inode} (h : x.isdir = false) :
    x.sortKey m = m.keyOf x.segs := by simp [sortKey, entry, h, object]

theorem sortKey_dir {m : PathMapper} {x : Inode} (h : x.isdir = true) :
    x.sortKey m = dirOutput (m.keyOf x.segs) := by simp [sortKey, entry, h]

@[simp] theorem entryKey_entry {m : PathMapper} {x : Inode} :
    entryKey (x.entry m) = m.keyOf x.segs := by
  cases h : x.isdir <;> simp [entry, h, object]

end Inode

/-! ## Keys of paths below the root -/

namespace PathMapper

variable {m : PathMapper} {p q : List Str}

/-- A canonical path strictly below the root. -/
structure Addressed (m : PathMapper) (p : List Str) : Prop where
  plain : ∀ s ∈ p, Plain s
  root : m.rootSegments <+: p
  ne_root : p ≠ m.rootSegments

/-- The segments below the root. -/
theorem Addressed.exists_segs (h : m.Addressed p) :
    ∃ ks, ks ≠ [] ∧ (∀ s ∈ ks, Plain s) ∧ p = m.rootSegments ++ ks := by
  obtain ⟨hplain, ⟨ks, rfl⟩, hne⟩ := h
  exact ⟨ks, fun hk => hne (by simp [hk]), fun s hs => hplain s (List.mem_append_right _ hs), rfl⟩

/-- A key is not empty. -/
theorem Addressed.keyOf_ne_nil (h : m.Addressed p) : m.keyOf p ≠ [] := by
  intro hnil
  have hpath := m.keyToHdfsPath_keyOf h.plain h.root h.ne_root
  rw [hnil] at hpath
  contradiction

/-- A key ends in no separator. -/
theorem Addressed.keyOf_ne_dirOutput (h : m.Addressed p) (d : Str) : m.keyOf p ≠ dirOutput d := by
  obtain ⟨ks, hne, hplain, rfl⟩ := h.exists_segs
  rw [keyOf_append]
  intro heq
  have hsplit := splitSlash_joinSlash (fun s hs => (hplain s hs).slash_not_mem) hne
  rw [heq, dirOutput, splitSlash_append, splitSlash_nil] at hsplit
  exact (hplain [] (hsplit ▸ by simp)).ne_nil rfl

/-- The key of a path strictly below another one extends the other's output key. -/
theorem Addressed.keyOf_below (h : m.Addressed p) (hpq : p <+: q) (hne : p ≠ q) :
    dirOutput (m.keyOf p) <+: m.keyOf q := by
  obtain ⟨ks, hks, -, rfl⟩ := h.exists_segs
  obtain ⟨zs, rfl⟩ := hpq
  have hz : zs ≠ [] := fun hz => hne (by simp [hz])
  rw [List.append_assoc, keyOf_append, keyOf_append, joinSlash_append hks hz]
  exact ⟨joinSlash zs, by simp [dirOutput]⟩

/-- Only the output keys of paths at or below a path extend its output key. -/
theorem Addressed.prefix_of_dirOutput (hp : m.Addressed p) (hq : m.Addressed q)
    (h : dirOutput (m.keyOf p) <+: dirOutput (m.keyOf q)) : p <+: q := by
  obtain ⟨ks, hk, hkplain, rfl⟩ := hp.exists_segs
  obtain ⟨ls, hl, hlplain, rfl⟩ := hq.exists_segs
  rw [List.prefix_append_right_inj]
  rw [keyOf_append, keyOf_append] at h
  obtain ⟨t, ht⟩ := h
  have hsplit := congrArg splitSlash ht
  rw [dirOutput, dirOutput, List.append_assoc, List.singleton_append, splitSlash_append,
    splitSlash_append, splitSlash_joinSlash (fun s hs => (hkplain s hs).slash_not_mem) hk,
    splitSlash_joinSlash (fun s hs => (hlplain s hs).slash_not_mem) hl, splitSlash_nil] at hsplit
  rcases List.prefix_concat_iff.mp ⟨_, hsplit⟩ with heq | hp
  · -- the pieces of a key are no empty names
    exact absurd rfl (hkplain [] (heq ▸ by simp)).ne_nil
  · exact hp

/-- A piece without separators that starts a path starts its first segment. -/
theorem prefix_first_segment {piece seg : Str} {rest : List Str} (hpiece : slash ∉ piece)
    (h : piece <+: joinSlash (seg :: rest)) : piece <+: seg := by
  by_cases hrest : rest = []
  · rwa [hrest, joinSlash_singleton] at h
  · rw [joinSlash_cons _ hrest] at h
    by_contra hne
    have hlen : seg.length < piece.length := by
      by_contra hle
      exact hne (List.prefix_of_prefix_length_le h (List.prefix_append _ _) (Nat.le_of_not_lt hle))
    have hslash : seg ++ [slash] <+: piece := by
      refine List.prefix_of_prefix_length_le ?_ h (by simpa using Nat.succ_le_of_lt hlen)
      exact ⟨joinSlash rest, by simp⟩
    exact hpiece (hslash.subset (by simp))

/-- Where a listing starts, seen from a path whose key starts with the prefix: the prefix consists of
the segments of the start below the root and a last piece. -/
theorem exists_level {pre : Str} {start : List Str} (hplain : ∀ s ∈ start, Plain s)
    (hstart : m.listStart pre = some (absPath start)) (hq : m.Addressed q)
    (hpre : pre <+: m.keyOf q) :
    ∃ qs t rest, start = m.rootSegments ++ qs ∧ q = m.rootSegments ++ (qs ++ rest) ∧ rest ≠ [] ∧
      slash ∉ t ∧ pre = dirPrefix qs ++ t := by
  obtain ⟨ks, hks, hkplain, rfl⟩ := hq.exists_segs
  rw [keyOf_append] at hpre
  obtain ⟨qs, piece, rest, hrest, rfl, hpiece, rfl⟩ := prefix_of_key hkplain hks hpre
  have hqs : ∀ s ∈ qs, Plain s := fun s hs => hkplain s (List.mem_append_left _ hs)
  have hguard : dirPrefix qs ++ piece ≠ dot ∧ dirPrefix qs ++ piece ≠ dotdot := by
    by_contra hcon
    have hrefused := m.listStart_refused (not_and_or.mp hcon |>.imp not_not.mp not_not.mp)
    rw [hrefused] at hstart
    contradiction
  have hdir : ∀ s ∈ m.rootSegments ++ qs, Plain s := fun s hs =>
    (List.mem_append.mp hs).elim (m.rootSegments_plain s) (hqs s)
  rw [m.listStart_dirPrefix hqs hpiece hguard] at hstart
  obtain rfl := absPath_injective hdir hplain (Option.some.inj hstart)
  exact ⟨qs, piece, rest, rfl, rfl, hrest, hpiece, rfl⟩

/-- A listing starts strictly above every path whose key starts with the prefix, and the keys of the
directories in between start with the prefix as well. -/
theorem listStart_above {pre : Str} {start : List Str} (hplain : ∀ s ∈ start, Plain s)
    (hstart : m.listStart pre = some (absPath start)) (hq : m.Addressed q)
    (hpre : pre <+: m.keyOf q) :
    start <+: q ∧ start ≠ q ∧ ∀ p, start <+: p → start ≠ p → p <+: q → pre <+: m.keyOf p := by
  obtain ⟨qs, piece, rest, rfl, rfl, hrest, hpiece, rfl⟩ := exists_level hplain hstart hq hpre
  rw [keyOf_append] at hpre
  rw [← List.append_assoc]
  refine ⟨List.prefix_append _ _, fun h => hrest (List.self_eq_append_right.mp h), ?_⟩
  rintro p ⟨zs, rfl⟩ hne hp
  obtain ⟨seg, zs, rfl⟩ := List.exists_cons_of_ne_nil fun hz : zs = [] => hne (by simp [hz])
  obtain ⟨rest', rfl⟩ := (List.prefix_append_right_inj _).mp hp
  rw [joinSlash_append_eq qs (by simp), List.prefix_append_right_inj, List.cons_append] at hpre
  have hseg := prefix_first_segment hpiece hpre
  rw [List.append_assoc, keyOf_append, joinSlash_append_eq qs (by simp),
    List.prefix_append_right_inj]
  by_cases hz : zs = []
  · rwa [hz, joinSlash_singleton]
  · rw [joinSlash_cons _ hz]
    exact hseg.trans (List.prefix_append _ _)

end PathMapper

namespace Inode

variable {m : PathMapper} {x y : Inode}

/-- The key of a node at or below a directory extends the directory's output key. -/
theorem dirOutput_prefix_sortKey (hx : m.Addressed x.segs) (h : x.segs <+: y.segs)
    (hy : x.segs = y.segs → y.isdir = true) :
    dirOutput (m.keyOf x.segs) <+: y.sortKey m := by
  by_cases heq : x.segs = y.segs
  · rw [sortKey_dir (hy heq), heq]
  · have hkey := hx.keyOf_below h heq
    cases hydir : y.isdir with
    | false => rwa [sortKey_file hydir]
    | true =>
      rw [sortKey_dir hydir]
      exact hkey.trans (List.prefix_append _ _)

/-- Nodes at different paths are ordered by different keys. -/
theorem segs_eq_of_sortKey (hx : m.Addressed x.segs) (hy : m.Addressed y.segs)
    (h : x.sortKey m = y.sortKey m) : x.segs = y.segs := by
  have hinj : m.keyOf x.segs = m.keyOf y.segs → x.segs = y.segs :=
    m.keyOf_injective hx.plain hy.plain hx.root hy.root hx.ne_root hy.ne_root
  cases hxd : x.isdir <;> cases hyd : y.isdir
  · rw [sortKey_file hxd, sortKey_file hyd] at h
    exact hinj h
  · rw [sortKey_file hxd, sortKey_dir hyd] at h
    exact absurd h (hx.keyOf_ne_dirOutput _)
  · rw [sortKey_dir hxd, sortKey_file hyd] at h
    exact absurd h.symm (hy.keyOf_ne_dirOutput _)
  · rw [sortKey_dir hxd, sortKey_dir hyd] at h
    exact hinj (List.append_cancel_right h)

/-- The status of an addressed node is listed as its entry. -/
theorem childEntry_status (hx : m.Addressed x.segs) : childEntry m x.status = some (x.entry m) := by
  have hkey : m.hdfsPathToKey x.status.path = some (m.keyOf x.segs) := by
    rw [status, m.hdfsPathToKey_absPath hx.plain, if_pos hx.root]
  unfold childEntry
  rw [hkey]
  simp only [if_neg hx.keyOf_ne_nil]
  cases h : x.isdir <;> simp [status, entry, object, h]

/-- A path without a key of its own is not listed. -/
theorem childEntry_status_none (hplain : ∀ s ∈ x.segs, Plain s) (h : ¬ m.Addressed x.segs) :
    childEntry m x.status = none := by
  have hkey : m.hdfsPathToKey x.status.path = none ∨ m.hdfsPathToKey x.status.path = some [] := by
    rw [status, m.hdfsPathToKey_absPath hplain]
    split
    · rename_i hroot
      have heq : x.segs = m.rootSegments := by
        by_contra hne
        exact h ⟨hplain, hroot, hne⟩
      rw [heq, PathMapper.keyOf, List.drop_length, joinSlash_nil]
      exact Or.inr rfl
    · exact Or.inl rfl
  rcases hkey with hkey | hkey <;> simp [childEntry, hkey]

end Inode

/-! ## Trees -/

/-- A finite directory tree: its files and directories below `/`. Names are plain, a path names one
node, and every directory above a node is in the tree. -/
structure Namespace where
  nodes : List Inode
  plain : ∀ x ∈ nodes, ∀ s ∈ x.segs, Plain s
  ne_top : ∀ x ∈ nodes, x.segs ≠ []
  nodup : (nodes.map Inode.segs).Nodup
  above : ∀ x ∈ nodes, ∀ p, p ≠ [] → p <+: x.segs → p ≠ x.segs →
    ∃ d ∈ nodes, d.segs = p ∧ d.isdir = true

namespace Namespace

variable (t : Namespace)

/-- The path is a directory: `/`, or one of the tree. -/
def IsDir (p : List Str) : Prop := p = [] ∨ ∃ d ∈ t.nodes, d.segs = p ∧ d.isdir = true

/-- The children of a directory. -/
def children (p : List Str) : List Inode := t.nodes.filter fun x => x.segs.dropLast = p

/-- How HDFS lists the tree: a directory is listed in any order, or fails with the error that it is
labelled with; a file is listed as itself; and any other path is not found. -/
structure Lists (outcome : List Str → Option HdfsError)
    (list : Str → Except HdfsError (List FileStatus)) : Prop where
  listed : ∀ p, t.IsDir p → outcome p = none →
    ∃ statuses, list (absPath p) = .ok statuses ∧ statuses.Perm ((t.children p).map Inode.status)
  failed : ∀ p err, t.IsDir p → outcome p = some err → list (absPath p) = .error err
  file : ∀ x ∈ t.nodes, x.isdir = false → list (absPath x.segs) = .ok [x.status]
  missing : ∀ p, (∀ s ∈ p, Plain s) → p ≠ [] → (∀ x ∈ t.nodes, x.segs ≠ p) →
    ∃ path, list (absPath p) = .error (.fileNotFound path)

variable {t} {x y : Inode} {p : List Str}

theorem nodup_nodes (t : Namespace) : t.nodes.Nodup := t.nodup.of_map _

/-- A path names one node. -/
theorem eq_of_segs (hx : x ∈ t.nodes) (hy : y ∈ t.nodes) (h : x.segs = y.segs) : x = y :=
  List.inj_on_of_nodup_map t.nodup hx hy h

/-- A node is a child of its directory only. -/
theorem mem_children : x ∈ t.children p ↔ x ∈ t.nodes ∧ ∃ name, x.segs = p ++ [name] := by
  rw [children, List.mem_filter, decide_eq_true_iff]
  constructor
  · rintro ⟨hx, rfl⟩
    exact ⟨hx, _, (List.dropLast_append_getLast (t.ne_top x hx)).symm⟩
  · rintro ⟨hx, name, hname⟩
    exact ⟨hx, by rw [hname, List.dropLast_concat]⟩

/-- Nothing lies below a file. -/
theorem eq_of_covers_file (hx : x ∈ t.nodes) (hy : y ∈ t.nodes) (hfile : x.isdir = false)
    (h : x.segs <+: y.segs) : y = x := by
  by_contra hne
  obtain ⟨d, hd, hsegs, hdir⟩ := t.above y hy x.segs (t.ne_top x hx) h
    fun heq => hne (eq_of_segs hy hx heq.symm)
  rw [eq_of_segs hd hx hsegs, hfile] at hdir
  contradiction

/-- What lies strictly below a path lies at or below exactly one of its children. -/
theorem filter_below_perm {all : List Inode} (hall : all.Nodup) (hmem : ∀ y ∈ all, y ∈ t.nodes)
    (p : List Str) :
    (all.filter fun y => decide (p <+: y.segs ∧ p ≠ y.segs)).Perm
      ((t.children p).flatMap fun c => all.filter c.covers) := by
  apply BestFirst.filter_perm_flatMap hall
  · intro y hy
    rw [decide_eq_true_iff]
    constructor
    · rintro ⟨⟨zs, hzs⟩, hne⟩
      obtain ⟨name, zs, rfl⟩ := List.exists_cons_of_ne_nil fun hz : zs = [] => hne (by simp [← hzs, hz])
      have hpre : p ++ [name] <+: y.segs := ⟨zs, by simp [← hzs]⟩
      -- the child is the node itself, or a directory above it
      by_cases heq : p ++ [name] = y.segs
      · exact ⟨y, mem_children.mpr ⟨hmem y hy, name, heq.symm⟩, Inode.covers_iff.mpr List.prefix_rfl⟩
      · obtain ⟨c, hc, hsegs, -⟩ := t.above y (hmem y hy) _ (by simp) hpre heq
        exact ⟨c, mem_children.mpr ⟨hc, name, hsegs⟩, Inode.covers_iff.mpr (hsegs ▸ hpre)⟩
    · rintro ⟨c, hc, hcovers⟩
      obtain ⟨-, name, hsegs⟩ := mem_children.mp hc
      rw [Inode.covers_iff, hsegs] at hcovers
      refine ⟨(List.prefix_append _ _).trans hcovers, ?_⟩
      rintro rfl
      have hlen := hcovers.length_le
      rw [List.length_append, List.length_singleton] at hlen
      omega
  · have hnodup : (t.children p).Nodup := t.nodup_nodes.filter _
    apply hnodup.pairwise_of_forall_ne
    intro c hc c' hc' hne y _ hcov hcov'
    obtain ⟨hcn, name, hsegs⟩ := mem_children.mp hc
    obtain ⟨hcn', name', hsegs'⟩ := mem_children.mp hc'
    rw [Inode.covers_iff] at hcov hcov'
    have hlen : c.segs.length = c'.segs.length := by simp [hsegs, hsegs']
    exact hne (eq_of_segs hcn hcn' ((List.prefix_of_prefix_length_le hcov hcov' hlen.le).eq_of_length
      hlen))

/-- A member of a list comes first among those it covers. -/
theorem filter_covers_perm {all : List Inode} (hall : all.Nodup) (hmem : ∀ y ∈ all, y ∈ t.nodes)
    (hx : x ∈ all) :
    (all.filter x.covers).Perm
      (x :: all.filter fun y => decide (x.segs <+: y.segs ∧ x.segs ≠ y.segs)) := by
  rw [List.perm_ext_iff_of_nodup (hall.filter _)]
  · intro y
    rw [List.mem_cons, List.mem_filter, List.mem_filter, Inode.covers_iff, decide_eq_true_iff]
    constructor
    · rintro ⟨hy, hcov⟩
      by_cases heq : x.segs = y.segs
      · exact Or.inl (eq_of_segs (hmem y hy) (hmem x hx) heq.symm)
      · exact Or.inr ⟨hy, hcov, heq⟩
    · rintro (rfl | ⟨hy, hcov, -⟩)
      · exact ⟨hx, List.prefix_rfl⟩
      · exact ⟨hy, hcov⟩
  · rw [List.nodup_cons]
    exact ⟨by simp, hall.filter _⟩

/-- Decidable form of the directories of a tree. -/
instance (t : Namespace) (p : List Str) : Decidable (t.IsDir p) :=
  inferInstanceAs (Decidable (_ ∨ _))

/-- A NameNode that lists the tree, with the children in the order of the table. -/
def reply (t : Namespace) (outcome : List Str → Option HdfsError) (path : Str) :
    Except HdfsError (List FileStatus) :=
  let p := segmentsOf path
  if t.IsDir p then
    match outcome p with
    | some err => .error err
    | none => .ok ((t.children p).map Inode.status)
  else
    match t.nodes.find? fun x => x.segs = p with
    | some x => .ok [x.status]
    | none => .error (.fileNotFound "")

/-- That NameNode lists the tree. -/
theorem lists_reply (t : Namespace) (outcome : List Str → Option HdfsError) :
    t.Lists outcome (t.reply outcome) := by
  have hplain : ∀ p, t.IsDir p → ∀ s ∈ p, Plain s := by
    rintro p (rfl | ⟨d, hd, rfl, -⟩)
    · simp
    · exact t.plain d hd
  refine ⟨fun p hdir hok => ?_, fun p err hdir herr => ?_, fun x hx hfile => ?_,
    fun p hp htop hnone => ?_⟩
  · refine ⟨(t.children p).map Inode.status, ?_, List.Perm.refl _⟩
    simp [reply, segmentsOf_absPath (hplain p hdir), hdir, hok]
  · simp [reply, segmentsOf_absPath (hplain p hdir), hdir, herr]
  · have hnot : ¬ t.IsDir x.segs := by
      rintro (htop | ⟨d, hd, hsegs, hdir⟩)
      · exact t.ne_top x hx htop
      · rw [eq_of_segs hd hx hsegs, hfile] at hdir
        contradiction
    have hfind : t.nodes.find? (fun y => y.segs = x.segs) = some x := by
      cases hfound : t.nodes.find? (fun y => decide (y.segs = x.segs)) with
      | none => simpa using List.find?_eq_none.mp hfound x hx
      | some y =>
        have hy := List.find?_some hfound
        rw [eq_of_segs (List.mem_of_find?_eq_some hfound) hx (of_decide_eq_true hy)]
    simp [reply, segmentsOf_absPath (t.plain x hx), hnot, hfind]
  · have hnot : ¬ t.IsDir p := by
      rintro (h | ⟨d, hd, hsegs, -⟩)
      · exact htop h
      · exact hnone d hd hsegs
    have hfind : t.nodes.find? (fun y => y.segs = p) = none := by
      rw [List.find?_eq_none]
      exact fun y hy => by simpa using hnone y hy
    exact ⟨"", by simp [reply, segmentsOf_absPath hp, hnot, hfind]⟩

/-! ## Listings of the tree -/

/-- The entries of a listing are the addressed ones of its statuses. -/
theorem entries_listingFromStatuses (statuses : List FileStatus) (m : PathMapper) :
    (listingFromStatuses statuses m).entries.Perm (statuses.filterMap (childEntry m)) := by
  apply List.Perm.trans _ (split_perm (statuses.filterMap (childEntry m)))
  exact ((List.mergeSort_perm _ _).map _).append ((List.mergeSort_perm _ _).map _)

/-- The statuses of addressed nodes are listed as their entries. -/
theorem filterMap_childEntry {m : PathMapper} {xs : List Inode}
    (h : ∀ x ∈ xs, m.Addressed x.segs) :
    (xs.map Inode.status).filterMap (childEntry m) = xs.map (Inode.entry m) := by
  rw [List.filterMap_map]
  induction xs with
  | nil => rfl
  | cons x xs ih =>
    rw [List.filterMap_cons, Function.comp_apply, Inode.childEntry_status (h x List.mem_cons_self),
      List.map_cons, ih fun y hy => h y (List.mem_cons_of_mem _ hy)]

/-- A listing of the children of one directory: its entries are theirs, and none of its directories
is below another. -/
theorem listing_children {m : PathMapper} {statuses : List FileStatus}
    (hp : ∀ x ∈ t.children p, m.Addressed x.segs)
    (hperm : statuses.Perm ((t.children p).map Inode.status)) :
    (listingFromStatuses statuses m).entries.Perm ((t.children p).map (Inode.entry m)) ∧
      Siblings (listingFromStatuses statuses m).dirs := by
  have hentries : (listingFromStatuses statuses m).entries.Perm
      ((t.children p).map (Inode.entry m)) := by
    apply (entries_listingFromStatuses statuses m).trans
    rw [← filterMap_childEntry hp]
    exact hperm.filterMap _
  refine ⟨hentries, ?_⟩
  obtain ⟨cs, hcs, hmap⟩ := BestFirst.exists_perm_of_map_perm hentries.symm
  rw [DirListing.entries] at hmap
  obtain ⟨fs, ds, rfl, -, hds⟩ := List.map_eq_append_iff.mp hmap
  have hchild : ∀ d ∈ ds, d ∈ t.children p := fun d hd =>
    hcs.mem_iff.mpr (List.mem_append_right _ hd)
  have hnodup : ds.Nodup := by
    have hall : (fs ++ ds).Nodup := hcs.nodup_iff.mp (t.nodup_nodes.filter _)
    exact (List.nodup_append.mp hall).2.1
  have hdir : ∀ d ∈ ds, d.isdir = true := by
    intro d hd
    have hside : d.entry m ∈ (listingFromStatuses statuses m).side false :=
      hds ▸ List.mem_map_of_mem hd
    obtain ⟨key, -, hkey⟩ := List.mem_map.mp hside
    by_contra hfile
    rw [Inode.entry, if_neg hfile] at hkey
    contradiction
  have hpairs : ds.Pairwise fun x y => ¬ x.sortKey m <+: y.sortKey m := by
    apply List.Nodup.pairwise_of_forall_ne hnodup
    intro d hd d' hd' hne hpre
    rw [Inode.sortKey_dir (hdir d hd), Inode.sortKey_dir (hdir d' hd')] at hpre
    have hsegs := (hp d (hchild d hd)).prefix_of_dirOutput (hp d' (hchild d' hd')) hpre
    obtain ⟨hdn, name, hname⟩ := mem_children.mp (hchild d hd)
    obtain ⟨hdn', name', hname'⟩ := mem_children.mp (hchild d' hd')
    exact hne (eq_of_segs hdn hdn' (hsegs.eq_of_length (by simp [hname, hname'])))
  have hsides : ((listingFromStatuses statuses m).dirs.map Sum.inr).Pairwise
      fun x y : ListEntry ⊕ Str => ¬ outputKey x <+: outputKey y := by
    have hsame : ds.map (Inode.entry m) = (listingFromStatuses statuses m).dirs.map Sum.inr := hds
    rw [← hsame]
    exact List.pairwise_map.mpr hpairs
  exact List.pairwise_map.mp hsides

end Namespace

end HdfsS3Gateway
