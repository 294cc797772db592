import HdfsS3Gateway.Core.SlashPages
import HdfsS3Gateway.S3.FlatExact

/-!
# The outputs of a directory tree

The outputs of a listing are defined by all files and directories of the tree below the root. The
gateway reads less: for the delimiter `/` only the children of the directory where the listing
starts, and otherwise only the files that the prefix and the marker let through. Both leave the
outputs unchanged.

A key below a child of the start collapses to the child's output key, and a common prefix after the
marker stands for keys that are all after it.
-/

namespace HdfsS3Gateway

open Lexicographic

/-! ## Files and directories among nodes -/

namespace Inode

variable {m : PathMapper} {x : Inode} {xs ys : List Inode}

/-- The objects that the files among nodes are listed as. -/
def objects (m : PathMapper) (xs : List Inode) : List ListEntry :=
  (xs.filter fun x => !x.isdir).map (object m)

/-- The keys of the directories among nodes. -/
def dirKeys (m : PathMapper) (xs : List Inode) : List Str :=
  (xs.filter fun x => x.isdir).map fun x => m.keyOf x.segs

theorem mem_objects {e : ListEntry} :
    e ∈ objects m xs ↔ ∃ x ∈ xs, x.isdir = false ∧ x.object m = e := by
  simp [objects, and_assoc]

theorem mem_dirKeys {d : Str} :
    d ∈ dirKeys m xs ↔ ∃ x ∈ xs, x.isdir = true ∧ m.keyOf x.segs = d := by
  simp [dirKeys, and_assoc]

end Inode

namespace Namespace

variable {t : Namespace} {m : PathMapper} {x y : Inode} {xs : List Inode}

/-- The nodes of a tree that have a key: those strictly below the root. -/
def exposed (t : Namespace) (m : PathMapper) : List Inode :=
  t.nodes.filter fun x => decide (m.rootSegments <+: x.segs ∧ x.segs ≠ m.rootSegments)

theorem mem_exposed : x ∈ t.exposed m ↔ x ∈ t.nodes ∧ m.Addressed x.segs := by
  rw [exposed, List.mem_filter, decide_eq_true_iff]
  constructor
  · exact fun h => ⟨h.1, t.plain x h.1, h.2.1, h.2.2⟩
  · exact fun h => ⟨h.1, h.2.root, h.2.ne_root⟩

/-- Different nodes with a key have different keys. -/
theorem eq_of_keyOf (hx : x ∈ t.exposed m) (hy : y ∈ t.exposed m)
    (h : m.keyOf x.segs = m.keyOf y.segs) : x = y := by
  obtain ⟨hx, hax⟩ := mem_exposed.mp hx
  obtain ⟨hy, hay⟩ := mem_exposed.mp hy
  exact eq_of_segs hx hy
    (m.keyOf_injective hax.plain hay.plain hax.root hay.root hax.ne_root hay.ne_root h)

/-- Different files with a key are listed under different keys. -/
theorem nodup_objects (hnodup : xs.Nodup) (hxs : ∀ x ∈ xs, x ∈ t.exposed m) :
    ((Inode.objects m xs).map ListEntry.key).Nodup := by
  rw [Inode.objects, List.map_map]
  apply (hnodup.filter _).map_on
  intro x hx y hy h
  exact eq_of_keyOf (hxs x (List.mem_of_mem_filter hx)) (hxs y (List.mem_of_mem_filter hy)) h

end Namespace

/-- More files and directories have more outputs. -/
theorem IsOutput.mono {files files' : List ListEntry} {dirs dirs' : List Str} {pre : Str}
    {delimiter : Option Str} {x : Output} (hfiles : ∀ e ∈ files, e ∈ files')
    (hdirs : ∀ d ∈ dirs, d ∈ dirs') (h : IsOutput files dirs pre delimiter x) :
    IsOutput files' dirs' pre delimiter x := by
  cases x with
  | inl e => exact ⟨hfiles e h.1, h.2⟩
  | inr p =>
    rcases h with ⟨e, he, hgroup⟩ | ⟨hdelim, d, hd, hgroup⟩
    · exact Or.inl ⟨e, hfiles e he, hgroup⟩
    · exact Or.inr ⟨hdelim, d, hdirs d hd, hgroup⟩

/-- Files and directories with the same outputs after the marker have the same pages. -/
theorem paginate_congr {files files' : List ListEntry} {dirs dirs' : List Str} {pre : Str}
    {delimiter marker : Option Str} (hkeys : (files.map ListEntry.key).Nodup)
    (hkeys' : (files'.map ListEntry.key).Nodup)
    (h : ∀ x, (∀ k, marker = some k → k < Output.key x) →
      (IsOutput files dirs pre delimiter x ↔ IsOutput files' dirs' pre delimiter x)) (maxKeys : ℕ) :
    paginate files dirs pre delimiter marker maxKeys =
      paginate files' dirs' pre delimiter marker maxKeys := by
  by_cases hmax : maxKeys = 0
  · rw [paginate, if_pos hmax, paginate, if_pos hmax]
  · obtain ⟨outputs, hasc, hmem, hpage⟩ :=
      exists_cut_paginate hkeys dirs pre delimiter marker hmax
    obtain ⟨outputs', hasc', hmem', hpage'⟩ :=
      exists_cut_paginate hkeys' dirs' pre delimiter marker hmax
    have hsame : outputs = outputs' := by
      apply hasc.ext hasc'
      intro x
      rw [hmem, hmem']
      exact and_congr_left (h x)
    rw [hpage, hpage', hsame]

/-! ## One directory is enough for `/` -/

namespace Namespace

variable {t : Namespace} {m : PathMapper} {x : Inode} {pre : Str} {start : List Str}

/-- Only a directory has children. -/
theorem children_eq_nil {p : List Str} (h : ¬ t.IsDir p) : t.children p = [] := by
  apply List.eq_nil_iff_forall_not_mem.mpr
  intro x hx
  obtain ⟨hx, name, hname⟩ := mem_children.mp hx
  apply h
  by_cases htop : p = []
  · exact Or.inl htop
  · exact Or.inr (t.above x hx p htop (hname ▸ List.prefix_append _ _) (by simp [hname]))

/-- The children of a start have keys. -/
theorem children_exposed (hplain : ∀ s ∈ start, Plain s)
    (hstart : m.listStart pre = some (absPath start)) (hx : x ∈ t.children start) :
    x ∈ t.exposed m := by
  obtain ⟨segs, hsegs, heq, hroot⟩ := m.listStart_eq_some hstart
  obtain rfl := absPath_injective hplain hsegs heq
  obtain ⟨hx, name, hname⟩ := mem_children.mp hx
  have hpre : start <+: x.segs := hname ▸ List.prefix_append _ _
  refine mem_exposed.mpr ⟨hx, t.plain x hx, hroot.trans hpre, ?_⟩
  intro heq
  have hlen := hroot.length_le
  rw [← heq, hname, List.length_append, List.length_singleton] at hlen
  omega

/-- A node whose key starts with the prefix lies at or below a child of the start, whose key is the
prefix and one more piece without separators. -/
theorem exists_child (hplain : ∀ s ∈ start, Plain s)
    (hstart : m.listStart pre = some (absPath start)) (hx : x ∈ t.exposed m)
    (hpre : pre <+: m.keyOf x.segs) :
    ∃ c ∈ t.children start, c.segs <+: x.segs ∧ ∃ s, slash ∉ s ∧ m.keyOf c.segs = pre ++ s := by
  obtain ⟨hx, haddr⟩ := mem_exposed.mp hx
  obtain ⟨qs, piece, rest, rfl, hsegs, hrest, hpiece, rfl⟩ :=
    PathMapper.exists_level hplain hstart haddr hpre
  obtain ⟨seg, rest, rfl⟩ := List.exists_cons_of_ne_nil hrest
  have hseg : slash ∉ seg := (t.plain x hx seg (by simp [hsegs])).slash_not_mem
  rw [hsegs, m.keyOf_append, joinSlash_append_eq qs (by simp), List.prefix_append_right_inj] at hpre
  obtain ⟨s, rfl⟩ := PathMapper.prefix_first_segment hpiece hpre
  have hkey : m.keyOf (m.rootSegments ++ (qs ++ [piece ++ s])) = dirPrefix qs ++ piece ++ s := by
    rw [m.keyOf_append, joinSlash_append_eq qs (by simp), joinSlash_singleton, List.append_assoc]
  have hpath : m.rootSegments ++ (qs ++ [piece ++ s]) <+: x.segs := by
    rw [hsegs]
    exact ⟨rest, by simp⟩
  obtain ⟨c, hc, hcsegs⟩ : ∃ c ∈ t.nodes, c.segs = m.rootSegments ++ (qs ++ [piece ++ s]) := by
    by_cases hself : m.rootSegments ++ (qs ++ [piece ++ s]) = x.segs
    · exact ⟨x, hx, hself.symm⟩
    · obtain ⟨c, hc, hcsegs, -⟩ := t.above x hx _ (by simp) hpath hself
      exact ⟨c, hc, hcsegs⟩
  refine ⟨c, mem_children.mpr ⟨hc, piece ++ s, by simp [hcsegs]⟩, hcsegs ▸ hpath, s, ?_,
    hcsegs ▸ hkey⟩
  exact fun hmem => hseg (List.mem_append_right _ hmem)

/-- A node at or below another one is that node, or the other one is a directory and the key goes on
with a separator. -/
theorem key_of_covers {c : Inode} (hc : c ∈ t.exposed m) (hx : x ∈ t.nodes)
    (h : c.segs <+: x.segs) :
    x = c ∨ c.isdir = true ∧ ∃ b, m.keyOf x.segs = m.keyOf c.segs ++ slash :: b := by
  obtain ⟨hcn, haddr⟩ := mem_exposed.mp hc
  cases hdir : c.isdir with
  | false => exact Or.inl (eq_of_covers_file hcn hx hdir h)
  | true =>
    by_cases heq : c.segs = x.segs
    · exact Or.inl (eq_of_segs hx hcn heq.symm)
    · obtain ⟨b, hb⟩ := haddr.keyOf_below h heq
      exact Or.inr ⟨rfl, b, by rw [← hb, dirOutput, List.append_assoc, List.singleton_append]⟩

/-- The children of the start are on the level of the prefix. -/
theorem children_onLevel (hplain : ∀ s ∈ start, Plain s)
    (hstart : m.listStart pre = some (absPath start)) (hx : x ∈ t.children start) :
    OnLevel pre (m.keyOf x.segs) := by
  intro hpre
  have hexposed := children_exposed hplain hstart hx
  obtain ⟨hxn, name, hname⟩ := mem_children.mp hx
  rcases List.prefix_concat_iff.mp hpre with heq | hpre
  · -- the prefix would name the child itself, where the listing would start
    exfalso
    obtain ⟨ks, hks, hkplain, hsegs⟩ := (mem_exposed.mp hexposed).2.exists_segs
    have hdir : pre = dirPrefix ks ++ [] := by
      rw [List.append_nil, dirPrefix_eq hks, heq, hsegs, m.keyOf_append]
    have hslash : slash ∈ dirPrefix ks ++ [] := by simp [dirPrefix_eq hks]
    have hguard : dirPrefix ks ++ [] ≠ dot ∧ dirPrefix ks ++ [] ≠ dotdot := by
      constructor <;> intro hcon <;> rw [hcon] at hslash <;> exact absurd hslash (by decide)
    rw [hdir, m.listStart_dirPrefix hkplain (by simp) hguard, ← hsegs] at hstart
    have hsame := absPath_injective (t.plain x hxn) hplain (Option.some.inj hstart)
    simp [hsame] at hname
  · obtain ⟨c, hc, hcov, s, hs, hkey⟩ := exists_child hplain hstart hexposed hpre
    obtain ⟨hcn, name', hname'⟩ := mem_children.mp hc
    have hsame : c.segs = x.segs := hcov.eq_of_length (by simp [hname, hname'])
    exact ⟨s, hsame ▸ hkey, hs⟩

/-- In the key of a child of the start no separator follows the prefix. -/
theorem children_level (hplain : ∀ s ∈ start, Plain s)
    (hstart : m.listStart pre = some (absPath start)) :
    (∀ f ∈ Inode.objects m (t.children start), ∀ rest, f.key = pre ++ rest → slash ∉ rest) ∧
      ∀ d ∈ Inode.dirKeys m (t.children start), OnLevel pre d := by
  constructor
  · intro f hf rest hkey
    obtain ⟨c, hc, -, rfl⟩ := Inode.mem_objects.mp hf
    have hkey' : m.keyOf c.segs = pre ++ rest := hkey
    obtain ⟨rest', heq, hrest⟩ :=
      children_onLevel hplain hstart hc ⟨rest ++ [slash], by simp [hkey', dirOutput]⟩
    rwa [List.append_cancel_left (hkey'.symm.trans heq)]
  · intro d hd
    obtain ⟨c, hc, -, rfl⟩ := Inode.mem_dirKeys.mp hd
    exact children_onLevel hplain hstart hc

/-- A node whose key starts with the prefix is a child of the start, or its key goes on below one. -/
theorem exists_child_key (hplain : ∀ s ∈ start, Plain s)
    (hstart : m.listStart pre = some (absPath start)) (hx : x ∈ t.exposed m)
    (hpre : pre <+: m.keyOf x.segs) :
    ∃ c ∈ t.children start, ∃ s, slash ∉ s ∧ m.keyOf c.segs = pre ++ s ∧
      (x = c ∨ c.isdir = true ∧ ∃ b, m.keyOf x.segs = pre ++ (s ++ slash :: b)) := by
  obtain ⟨c, hc, hcov, s, hs, hkey⟩ := exists_child hplain hstart hx hpre
  have hcases := key_of_covers (children_exposed hplain hstart hc) (mem_exposed.mp hx).1 hcov
  simp only [hkey, List.append_assoc] at hcases
  exact ⟨c, hc, s, hs, hkey, hcases⟩

/-- What goes on below a child directory is grouped by the child's output key. -/
theorem isOutput_child {c : Inode} {s b p : Str} (hc : c ∈ t.children start) (hdir : c.isdir = true)
    (hs : slash ∉ s) (hkey : m.keyOf c.segs = pre ++ s)
    (hp : GroupsAt pre [slash] (pre ++ (s ++ slash :: b)) p) :
    IsOutput (Inode.objects m (t.children start)) (Inode.dirKeys m (t.children start)) pre
      (some [slash]) (.inr p) := by
  refine Or.inr ⟨rfl, m.keyOf c.segs, Inode.mem_dirKeys.mpr ⟨c, hc, hdir, rfl⟩, ⟨s, hkey.symm⟩, ?_⟩
  rw [groupsAt_piece hs] at hp
  rw [hkey, dirOutput, List.append_assoc, groupsAt_piece hs]
  exact hp

/-- A listed file is a child of the start: below a child its key has another separator. -/
theorem isOutput_file_children (hplain : ∀ s ∈ start, Plain s)
    (hstart : m.listStart pre = some (absPath start)) {e : ListEntry}
    (h : IsOutput (Inode.objects m (t.exposed m)) (Inode.dirKeys m (t.exposed m)) pre (some [slash])
      (.inl e)) :
    IsOutput (Inode.objects m (t.children start)) (Inode.dirKeys m (t.children start)) pre
      (some [slash]) (.inl e) := by
  obtain ⟨he, hpre, hrest⟩ := h
  obtain ⟨y, hy, hfile, rfl⟩ := Inode.mem_objects.mp he
  obtain ⟨c, hc, s, -, -, rfl | ⟨-, b, hb⟩⟩ := exists_child_key hplain hstart hy hpre
  · exact ⟨Inode.mem_objects.mpr ⟨y, hc, hfile, rfl⟩, hpre, hrest⟩
  · refine absurd ?_ (hrest [slash] rfl (by simp))
    have hkey : (y.object m).key = pre ++ (s ++ slash :: b) := hb
    rw [hkey, List.drop_left]
    exact ⟨s, b, by simp⟩

/-- A listed group is the output key of a child directory, whatever node it comes from. -/
theorem isOutput_group_children (hplain : ∀ s ∈ start, Plain s)
    (hstart : m.listStart pre = some (absPath start)) {p : Str}
    (h : IsOutput (Inode.objects m (t.exposed m)) (Inode.dirKeys m (t.exposed m)) pre (some [slash])
      (.inr p)) :
    IsOutput (Inode.objects m (t.children start)) (Inode.dirKeys m (t.children start)) pre
      (some [slash]) (.inr p) := by
  rcases h with ⟨e, he, delim, hdelim, -, hp⟩ | ⟨-, d, hd, hpre, hp⟩
  · obtain rfl := Option.some.inj hdelim
    obtain ⟨y, hy, hfile, rfl⟩ := Inode.mem_objects.mp he
    have hpre : pre <+: m.keyOf y.segs := by
      obtain ⟨a, b, hkey, -⟩ := hp
      exact ⟨_, hkey.symm⟩
    obtain ⟨c, hc, s, hs, hkey, rfl | ⟨hdir, b, hb⟩⟩ := exists_child_key hplain hstart hy hpre
    · obtain ⟨a, b, hsplit, -⟩ := hp
      have hmem : slash ∈ s := by
        have hrest : s = a ++ [slash] ++ b := List.append_cancel_left (hkey.symm.trans hsplit)
        simp [hrest]
      exact absurd hmem hs
    · have hp' : GroupsAt pre [slash] (m.keyOf y.segs) p := hp
      exact isOutput_child hc hdir hs hkey (hb ▸ hp')
  · obtain ⟨y, hy, hydir, rfl⟩ := Inode.mem_dirKeys.mp hd
    obtain ⟨c, hc, s, hs, hkey, rfl | ⟨hdir, b, hb⟩⟩ := exists_child_key hplain hstart hy hpre
    · rw [hkey, dirOutput, List.append_assoc] at hp
      exact isOutput_child hc hydir hs hkey hp
    · rw [hb, dirOutput, List.append_assoc, List.append_assoc, List.cons_append] at hp
      exact isOutput_child hc hdir hs hkey hp

/-- For the delimiter `/` the tree has the outputs of the children of the start. -/
theorem isOutput_children (hplain : ∀ s ∈ start, Plain s)
    (hstart : m.listStart pre = some (absPath start)) (x : Output) :
    IsOutput (Inode.objects m (t.exposed m)) (Inode.dirKeys m (t.exposed m)) pre (some [slash]) x ↔
      IsOutput (Inode.objects m (t.children start)) (Inode.dirKeys m (t.children start)) pre
        (some [slash]) x := by
  constructor
  · intro h
    cases x with
    | inl e => exact isOutput_file_children hplain hstart h
    | inr p => exact isOutput_group_children hplain hstart h
  · apply IsOutput.mono
    · intro e he
      obtain ⟨c, hc, hfile, rfl⟩ := Inode.mem_objects.mp he
      exact Inode.mem_objects.mpr ⟨c, children_exposed hplain hstart hc, hfile, rfl⟩
    · intro d hd
      obtain ⟨c, hc, hdir, rfl⟩ := Inode.mem_dirKeys.mp hd
      exact Inode.mem_dirKeys.mpr ⟨c, children_exposed hplain hstart hc, hdir, rfl⟩

end Namespace

/-- For the delimiter `/` a page of the whole tree is the page of the children of the directory where
the listing starts, which has none if it is no directory. -/
theorem paginate_start_children (t : Namespace) (m : PathMapper) {pre start : Str}
    (hstart : m.listStart pre = some start) (marker : Option Str) (maxKeys : ℕ) :
    paginate (Inode.objects m (t.exposed m)) (Inode.dirKeys m (t.exposed m)) pre (some [slash]) marker
        maxKeys =
      paginate (Inode.objects m (t.children (segmentsOf start)))
        (Inode.dirKeys m (t.children (segmentsOf start))) pre (some [slash]) marker maxKeys ∧
    (¬ t.IsDir (segmentsOf start) → t.children (segmentsOf start) = []) := by
  obtain ⟨segs, hplain, rfl, -⟩ := m.listStart_eq_some hstart
  rw [segmentsOf_absPath hplain]
  refine ⟨?_, Namespace.children_eq_nil⟩
  apply paginate_congr
  · exact Namespace.nodup_objects (t.nodup_nodes.filter _) fun _ hx => hx
  · exact Namespace.nodup_objects (t.nodup_nodes.filter _) fun _ hx =>
      Namespace.children_exposed hplain hstart hx
  · exact fun x _ => Namespace.isOutput_children hplain hstart x

/-- The prefix `a` of the sample ends inside the name `a.txt` and starts at the root. -/
theorem paginate_start_children_sample :
    let t := Namespace.sample
    let m := PathMapper.new { hdfsRoot := [slash], bucketName := [] }
    paginate (Inode.objects m (t.exposed m)) (Inode.dirKeys m (t.exposed m)) [0x61] (some [slash]) none
        2 =
      paginate (Inode.objects m (t.children (segmentsOf [slash])))
        (Inode.dirKeys m (t.children (segmentsOf [slash]))) [0x61] (some [slash]) none 2 ∧
    (¬ t.IsDir (segmentsOf [slash]) → t.children (segmentsOf [slash]) = []) :=
  paginate_start_children .sample _ (by decide) none 2

/-! ## The files after the marker are enough for other delimiters -/

namespace FlatListing

variable {w : FlatListing} {selected : List Inode}
  {list : Str → Except HdfsError (List FileStatus)}

/-- Over a readable tree every file that the prefix and the marker let through is selected. -/
theorem selected_iff (hread : ∀ p, w.outcome p = none) {x : Inode} : w.Selected x ↔
    x ∈ w.tree.exposed w.mapper ∧ x.isdir = false ∧ w.pre <+: w.mapper.keyOf x.segs ∧
      ∀ marker, w.after = some marker → marker < w.mapper.keyOf x.segs := by
  constructor
  · exact fun h => ⟨Namespace.mem_exposed.mpr ⟨h.mem, h.toBelow.addressed⟩, h.file, h.starts_with,
      h.above_marker⟩
  · rintro ⟨hx, hfile, hpre, hmarker⟩
    obtain ⟨hx, haddr⟩ := Namespace.mem_exposed.mp hx
    refine ⟨below_of_isPrefix hx haddr hpre, hfile, hpre, hmarker, fun p _ _ _ _ err herr => ?_⟩
    rw [hread p] at herr
    contradiction

/-- Over a readable tree the engine without a limit returns every selected file. -/
theorem collectPage_all (hread : ∀ p, w.outcome p = none) (hl : w.tree.Lists w.outcome list)
    (hs : w.Selection selected) {fuel : ℕ} (hfuel : w.tree.nodes.length < fuel) :
    (w.fresh.collectPage fuel none).eval (w.lister list) =
      .ok (selected.map (Inode.object w.mapper), false) := by
  obtain ⟨events, he⟩ := w.exists_events
  have hok : ∀ d ∈ events, d.isdir = true → w.fails d = none := fun d _ _ => by
    rw [fails, hread]
    rfl
  rw [(collectPage_refines he hl (Or.inr (hread _)) hfuel (by simp)).1, collect_unlimited hok,
    hs.eq_files he hok]
  rfl

/-- The selected files have the outputs after the marker of all files: a common prefix after the
marker is the prefix of keys after the marker. -/
theorem isOutput_selected (hread : ∀ p, w.outcome p = none) (hs : w.Selection selected)
    (delimiter : Option Str) {x : Output} (hx : ∀ k, w.after = some k → k < Output.key x) :
    IsOutput (selected.map (Inode.object w.mapper)) [] w.pre delimiter x ↔
      IsOutput (Inode.objects w.mapper (w.tree.exposed w.mapper)) [] w.pre delimiter x := by
  have hselected : ∀ {e : ListEntry}, e ∈ selected.map (Inode.object w.mapper) ↔
      e ∈ Inode.objects w.mapper (w.tree.exposed w.mapper) ∧ w.pre <+: e.key ∧
        ∀ k, w.after = some k → k < e.key := by
    intro e
    simp only [List.mem_map, hs.mem_iff, selected_iff hread, Inode.mem_objects]
    constructor
    · rintro ⟨y, ⟨hy, hfile, hpre, hmarker⟩, rfl⟩
      exact ⟨⟨y, hy, hfile, rfl⟩, hpre, hmarker⟩
    · rintro ⟨⟨y, hy, hfile, rfl⟩, hpre, hmarker⟩
      exact ⟨y, ⟨hy, hfile, hpre, hmarker⟩, rfl⟩
  constructor
  · exact IsOutput.mono (fun e he => (hselected.mp he).1) fun d hd => hd
  · intro h
    cases x with
    | inl e => exact ⟨hselected.mpr ⟨h.1, h.2.1, hx⟩, h.2⟩
    | inr p =>
      rcases h with ⟨e, he, delim, hdelim, hne, hgroup⟩ | ⟨-, d, hd, -⟩
      · obtain ⟨a, b, hkey, rfl, -⟩ := id hgroup
        have hpe : w.pre ++ (a ++ delim) <+: e.key := ⟨b, by rw [hkey]; simp⟩
        have hpre : w.pre <+: e.key := (List.prefix_append _ _).trans hpe
        exact Or.inl ⟨e, hselected.mpr ⟨he, hpre, fun k hk => lt_of_lt_of_le (hx k hk)
          (le_of_isPrefix hpe)⟩, delim, hdelim, hne, hgroup⟩
      · contradiction

/-- Over a readable tree the marker can be pushed down: paginating the entries that the engine
returns for the marker gives the page of all files of the tree, for every delimiter. -/
theorem paginate_push_down (w : FlatListing) (hread : ∀ p, w.outcome p = none)
    {list : Str → Except HdfsError (List FileStatus)} (hl : w.tree.Lists w.outcome list) {fuel : ℕ}
    (hfuel : w.tree.nodes.length < fuel) (delimiter : Option Str) (maxKeys : ℕ) :
    ∃ entries, (SortedListing.collectPage fuel none
        (.new (absPath w.start) w.pre w.after w.mapper)).eval (w.lister list) = .ok (entries, false) ∧
      paginate entries [] w.pre delimiter w.after maxKeys =
        paginate (Inode.objects w.mapper (w.tree.exposed w.mapper)) [] w.pre delimiter w.after
          maxKeys := by
  obtain ⟨selected, hs⟩ := w.exists_selection
  refine ⟨_, collectPage_all hread hl hs hfuel, ?_⟩
  apply paginate_congr
  · rw [List.map_map]
    exact List.pairwise_map.mpr (hs.keys_sorted.imp ne_of_lt)
  · exact Namespace.nodup_objects (w.tree.nodup_nodes.filter _) fun _ hx => hx
  · exact fun x hx => isOutput_selected hread hs delimiter hx

/-- The sample with the delimiter `b`. -/
theorem paginate_push_down_sample :
    let w := sample fun _ => none
    ∃ entries, (SortedListing.collectPage 4 none
        (.new (absPath w.start) w.pre w.after w.mapper)).eval
          (w.lister (w.tree.reply w.outcome)) = .ok (entries, false) ∧
      paginate entries [] w.pre (some [0x62]) w.after 1 =
        paginate (Inode.objects w.mapper (w.tree.exposed w.mapper)) [] w.pre (some [0x62]) w.after 1 :=
  paginate_push_down _ (fun _ => rfl) (Namespace.lists_reply _ _) (by decide) _ 1

end FlatListing

end HdfsS3Gateway
