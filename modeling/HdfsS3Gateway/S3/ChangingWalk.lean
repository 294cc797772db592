import HdfsS3Gateway.Core.KeyRoundTrip
import HdfsS3Gateway.S3.EngineRuns
import HdfsS3Gateway.S3.Namespace

/-!
# Recursive listings of a namespace that changes

The directories of a page are listed one after the other, and between two replies the namespace may
change in any way. What still holds rests on two facts about the frontier: no pending entry lies at
or below another one, and a turn takes a least entry. So the entries come out in strict order and no
directory is opened twice. A file that every reply on its way names is never lost: there is always
a pending entry on the way to it.

The one change that would break the order is a directory that becomes a file between the listing of
its parent and its own; `Orderly` excludes it.
-/

namespace HdfsS3Gateway

open Interaction Lexicographic

/-! ## The names of entries -/

/-- The segments that an entry is named by. -/
def entrySegs (x : ListEntry ⊕ Str) : List Str := splitSlash (entryKey x)

theorem joinSlash_entrySegs (x : ListEntry ⊕ Str) : joinSlash (entrySegs x) = entryKey x :=
  joinSlash_splitSlash _

/-- The entry with this key has these segments. -/
theorem entrySegs_eq {x : ListEntry ⊕ Str} {segs : List Str} (hplain : ∀ s ∈ segs, Plain s)
    (hne : segs ≠ []) (h : entryKey x = joinSlash segs) : entrySegs x = segs := by
  rw [entrySegs, h, splitSlash_joinSlash (fun s hs => (hplain s hs).slash_not_mem) hne]

/-- Every segment is a file name. -/
def PlainEntry (x : ListEntry ⊕ Str) : Prop := ∀ s ∈ entrySegs x, Plain s

/-- Entries with the same output key have the same segments. -/
theorem entrySegs_eq_of_outputKey {x y : ListEntry ⊕ Str} (hx : PlainEntry x) (hy : PlainEntry y)
    (h : outputKey x = outputKey y) : entrySegs x = entrySegs y := by
  have hends : ∀ (e : ListEntry) (d : Str), PlainEntry (.inl e) → e.key ≠ dirOutput d := by
    intro e d he heq
    have hmem : ([] : Str) ∈ entrySegs (.inl e) := by
      rw [entrySegs, entryKey_inl, heq, dirOutput, splitSlash_append, splitSlash_nil]
      simp
    exact (he [] hmem).ne_nil rfl
  cases x with
  | inl e =>
    cases y with
    | inl e' => exact congrArg splitSlash h
    | inr d' => exact absurd h (hends e d' hx)
  | inr d =>
    cases y with
    | inl e' => exact absurd h.symm (hends e' d hy)
    | inr d' => exact congrArg splitSlash (List.append_cancel_right h)

/-- A key strictly below a directory extends the directory's output key. -/
theorem dirOutput_joinSlash_prefix {ks ls : List Str} (hks : ks ≠ []) (h : ks <+: ls) (hne : ks ≠ ls) :
    dirOutput (joinSlash ks) <+: joinSlash ls := by
  obtain ⟨zs, rfl⟩ := h
  have hz : zs ≠ [] := fun hz => hne (by simp [hz])
  rw [joinSlash_append hks hz]
  exact ⟨joinSlash zs, by simp [dirOutput]⟩

/-- Splitting never gives an empty list. -/
theorem entrySegs_ne_nil (x : ListEntry ⊕ Str) : entrySegs x ≠ [] := splitSlash_ne_nil _

/-- Everything strictly below a directory comes after it. -/
theorem dirOutput_lt_outputKey {d : Str} {x : ListEntry ⊕ Str} (hd : PlainEntry (.inr d))
    (hx : PlainEntry x) (h : entrySegs (.inr d) <+: entrySegs x)
    (hne : entrySegs (.inr d) ≠ entrySegs x) : dirOutput d < outputKey x := by
  have hpre := dirOutput_joinSlash_prefix (entrySegs_ne_nil _) h hne
  rw [joinSlash_entrySegs, joinSlash_entrySegs, entryKey_inr] at hpre
  have hout : entryKey x <+: outputKey x := by
    cases x with
    | inl e => exact List.prefix_rfl
    | inr d' => exact List.prefix_append _ _
  apply lt_of_le_of_ne (le_of_isPrefix (hpre.trans hout))
  exact fun heq => hne (entrySegs_eq_of_outputKey hd hx heq)

/-! ## Replies -/

/-- The listing of a directory: its entries are children of it, with different names. -/
structure Genuine (ks : List Str) (listing : DirListing) : Prop where
  child : ∀ x ∈ listing.entries, ∃ name, Plain name ∧ entryKey x = joinSlash (ks ++ [name])
  nodup : (listing.entries.map entryKey).Nodup

/-- The listing of a file, which HDFS answers with the file itself. -/
def FileItself (ks : List Str) (listing : DirListing) : Prop :=
  listing.entries = [] ∨ ∃ e, listing.entries = [.inl e] ∧ e.key = joinSlash ks ∧ ks ≠ []

/-- A reply lists this path below the root. -/
def Lists (m : PathMapper) (log : List Exchange) (ks : List Str) (listing : DirListing) : Prop :=
  (∀ s ∈ ks, Plain s) ∧ ⟨absPath (m.rootSegments ++ ks), .ok listing⟩ ∈ log

/-- A reply names this entry. -/
def Names (m : PathMapper) (log : List Exchange) (x : ListEntry ⊕ Str) : Prop :=
  ∃ ks listing, Lists m log ks listing ∧ x ∈ listing.entries

/-- Every reply is the listing of a directory, or of a file that no reply names as a directory. -/
def Orderly (m : PathMapper) (log : List Exchange) : Prop :=
  ∀ ks listing, Lists m log ks listing →
    Genuine ks listing ∨ FileItself ks listing ∧ ¬ Names m log (.inr (joinSlash ks))

/-- Every reply on the way to a file names the next node on the way: a directory, or the file. -/
def Lasting (m : PathMapper) (log : List Exchange) (q : List Str) : Prop :=
  ∀ ks name r, ks ++ [name] <+: q → ⟨absPath (m.rootSegments ++ ks), r⟩ ∈ log →
    ∃ listing, r = .ok listing ∧ ∃ x ∈ listing.entries, entryKey x = joinSlash (ks ++ [name]) ∧
      (x.isLeft = true ↔ ks ++ [name] = q)

theorem Lists.append {m : PathMapper} {log : List Exchange} {ks : List Str} {listing : DirListing}
    (h : Lists m log ks listing) (log' : List Exchange) : Lists m (log ++ log') ks listing :=
  ⟨h.1, List.mem_append_left _ h.2⟩

theorem Names.append {m : PathMapper} {log : List Exchange} {x : ListEntry ⊕ Str}
    (h : Names m log x) (log' : List Exchange) : Names m (log ++ log') x := by
  obtain ⟨ks, listing, hlists, hx⟩ := h
  exact ⟨ks, listing, hlists.append log', hx⟩

/-- Replies that were not received yet do not matter. -/
theorem Orderly.of_append {m : PathMapper} {log log' : List Exchange}
    (h : Orderly m (log ++ log')) : Orderly m log := fun ks listing hlists =>
  (h ks listing (hlists.append log')).imp_right fun ⟨hfile, hno⟩ =>
    ⟨hfile, fun hnames => hno (hnames.append log')⟩

theorem Lasting.of_append {m : PathMapper} {log log' : List Exchange} {q : List Str}
    (h : Lasting m (log ++ log') q) : Lasting m log q :=
  fun ks name r hq hmem => h ks name r hq (List.mem_append_left _ hmem)

namespace Genuine

variable {ks : List Str} {listing : DirListing}

/-- The entries of a listing are one segment longer than its directory. -/
theorem segs (h : Genuine ks listing) (hks : ∀ s ∈ ks, Plain s) {x : ListEntry ⊕ Str}
    (hx : x ∈ listing.entries) : ∃ name, Plain name ∧ entrySegs x = ks ++ [name] := by
  obtain ⟨name, hname, hkey⟩ := h.child x hx
  refine ⟨name, hname, entrySegs_eq (fun s hs => ?_) (by simp) hkey⟩
  rcases List.mem_append.mp hs with hs | hs
  · exact hks s hs
  · exact List.mem_singleton.mp hs ▸ hname

/-- So they are plain, -/
theorem plain (h : Genuine ks listing) (hks : ∀ s ∈ ks, Plain s) {x : ListEntry ⊕ Str}
    (hx : x ∈ listing.entries) : PlainEntry x := by
  obtain ⟨name, hname, hsegs⟩ := h.segs hks hx
  intro s hs
  rw [hsegs] at hs
  rcases List.mem_append.mp hs with hs | hs
  · exact hks s hs
  · exact List.mem_singleton.mp hs ▸ hname

end Genuine

/-- A file listed as itself is listed as a child of its directory. -/
theorem FileItself.genuine {ks : List Str} {listing : DirListing} (h : FileItself ks listing)
    (hks : ∀ s ∈ ks, Plain s) : Genuine ks.dropLast listing ∧ ∀ d, .inr d ∉ listing.entries := by
  rcases h with hnil | ⟨e, hone, hkey, hne⟩
  · rw [hnil]
    exact ⟨⟨by simp [hnil], by simp [hnil]⟩, by simp⟩
  · refine ⟨⟨fun x hx => ?_, by simp [hone]⟩, by simp [hone]⟩
    rw [hone, List.mem_singleton] at hx
    refine ⟨ks.getLast hne, hks _ (List.getLast_mem hne), ?_⟩
    rw [hx, List.dropLast_append_getLast hne]
    exact hkey

/-- Neither entry lies at or below the other one. -/
def Apart (x y : ListEntry ⊕ Str) : Prop :=
  ¬ entrySegs x <+: entrySegs y ∧ ¬ entrySegs y <+: entrySegs x

theorem Apart.symm {x y : ListEntry ⊕ Str} (h : Apart x y) : Apart y x := ⟨h.2, h.1⟩

/-- Nothing in a listing lies at or below anything else in it. -/
theorem Genuine.apart {ks : List Str} {listing : DirListing} (h : Genuine ks listing)
    (hks : ∀ s ∈ ks, Plain s) : listing.entries.Pairwise Apart := by
  have hne : listing.entries.Pairwise fun x y => entryKey x ≠ entryKey y :=
    List.pairwise_map.mp h.nodup
  apply hne.imp_of_mem
  intro x y hx hy hxy
  obtain ⟨name, -, hsegs⟩ := h.segs hks hx
  obtain ⟨name', -, hsegs'⟩ := h.segs hks hy
  have hlen : (entrySegs x).length = (entrySegs y).length := by simp [hsegs, hsegs']
  have hdiff : entrySegs x ≠ entrySegs y := fun heq => hxy (by
    rw [← joinSlash_entrySegs x, ← joinSlash_entrySegs y, heq])
  exact ⟨fun hp => hdiff (hp.eq_of_length hlen), fun hp => hdiff (hp.eq_of_length hlen.symm).symm⟩

/-- Only the outputs of directories at or below a directory extend its output. -/
theorem entrySegs_prefix_of_dirOutput {a b : Str} (ha : PlainEntry (.inr a))
    (h : dirOutput a <+: dirOutput b) : entrySegs (.inr a) <+: entrySegs (.inr b) := by
  obtain ⟨t, ht⟩ := h
  have hsplit := congrArg splitSlash ht
  rw [dirOutput, dirOutput, List.append_assoc, List.singleton_append, splitSlash_append,
    splitSlash_append, splitSlash_nil] at hsplit
  rcases List.prefix_concat_iff.mp ⟨_, hsplit⟩ with heq | hp
  · have hmem : ([] : Str) ∈ entrySegs (.inr a) := by simp [entrySegs, heq]
    exact absurd rfl (ha [] hmem).ne_nil
  · exact hp

/-- The output of one directory of a listing never extends that of another one. -/
theorem Genuine.siblings {ks : List Str} {listing : DirListing} (h : Genuine ks listing)
    (hks : ∀ s ∈ ks, Plain s) : Siblings listing.dirs := by
  have hdirs : (listing.dirs.map (Sum.inr (α := ListEntry))).Pairwise Apart :=
    (h.apart hks).sublist (List.sublist_append_right _ _)
  apply (List.pairwise_map.mp hdirs).imp_of_mem
  intro a b ha _ hab hpre
  have hmem : .inr a ∈ listing.entries := List.mem_append_right _ (List.mem_map_of_mem ha)
  exact hab.1 (entrySegs_prefix_of_dirOutput (h.plain hks hmem) hpre)

/-! ## The frontier -/

/-- What lies pending: entries with plain names, none at or below another one. -/
structure Antichain (frontier : List (ListEntry ⊕ Str)) : Prop where
  plain : ∀ x ∈ frontier, PlainEntry x
  apart : frontier.Pairwise Apart

namespace Antichain

variable {frontier rest : List (ListEntry ⊕ Str)} {x : ListEntry ⊕ Str}

theorem of_perm (h : Antichain frontier) (hp : frontier.Perm rest) : Antichain rest :=
  ⟨fun x hx => h.plain x (hp.mem_iff.mpr hx), hp.pairwise h.apart Apart.symm⟩

theorem of_cons (h : Antichain (x :: rest)) : Antichain rest :=
  ⟨fun y hy => h.plain y (List.mem_cons_of_mem _ hy), (List.pairwise_cons.mp h.apart).2⟩

/-- Some entries of a listing. -/
theorem of_genuine {ks : List Str} {listing : DirListing} (h : Genuine ks listing)
    (hks : ∀ s ∈ ks, Plain s) : Antichain listing.entries :=
  ⟨fun _ hx => h.plain hks hx, h.apart hks⟩

/-- The children of a directory take its place. -/
theorem replace {d : Str} {kept : List (ListEntry ⊕ Str)} (h : Antichain (.inr d :: rest))
    (hkept : Antichain kept)
    (hbelow : ∀ x ∈ kept, ∃ name, entrySegs x = entrySegs (.inr d) ++ [name]) :
    Antichain (kept ++ rest) := by
  obtain ⟨hd, hrest⟩ := List.pairwise_cons.mp h.apart
  refine ⟨fun x hx => ?_, List.pairwise_append.mpr ⟨hkept.apart, hrest, fun x hx y hy => ?_⟩⟩
  · rcases List.mem_append.mp hx with hx | hx
    · exact hkept.plain x hx
    · exact h.plain x (List.mem_cons_of_mem _ hx)
  · obtain ⟨name, hsegs⟩ := hbelow x hx
    constructor
    · intro hp
      rw [hsegs] at hp
      exact (hd y hy).1 ((List.prefix_append _ _).trans hp)
    · intro hp
      rw [hsegs] at hp
      rcases List.prefix_concat_iff.mp hp with heq | hp
      · exact (hd y hy).1 (heq ▸ List.prefix_append _ _)
      · exact (hd y hy).2 hp

/-- A popped entry comes strictly before what stays pending. -/
theorem popped_lt {heap heap' : List Cursor} (h : Antichain (pending heap))
    (hpop : SortedListing.Popped heap x heap') : ∀ y ∈ pending heap', outputKey x < outputKey y := by
  intro y hy
  have hcons := h.of_perm hpop.perm
  apply lt_of_le_of_ne (hpop.least y hy)
  intro heq
  have hsegs := entrySegs_eq_of_outputKey (hcons.plain x List.mem_cons_self)
    (hcons.plain y (List.mem_cons_of_mem _ hy)) heq
  exact ((List.pairwise_cons.mp hcons.apart).1 y hy).1 (hsegs ▸ List.prefix_rfl)

end Antichain

namespace SortedListing

/-! ## What a turn does to the frontier -/

/-- The entry `x` is taken off the frontier, from before everything else, and these take its place. -/
structure Took (s : SortedListing) (x : ListEntry ⊕ Str) (s' : SortedListing)
    (kept rest : List (ListEntry ⊕ Str)) : Prop where
  before : (pending s.heap).Perm (x :: rest)
  now : pending s'.heap = kept ++ rest
  first : ∀ y ∈ rest, outputKey x < outputKey y

/-- Everything a turn can do to an orderly frontier, with the reply it got. -/
inductive Moved (s : SortedListing) : List Exchange → Turn → SortedListing → Prop
  | stop {s' : SortedListing} (hnone : pending s.heap = []) (hnone' : pending s'.heap = []) :
      Moved s [] .stop s'
  | skip {x : ListEntry ⊕ Str} {rest : List (ListEntry ⊕ Str)} {s' : SortedListing}
      (htook : Took s x s' [] rest)
      (hskip : ¬ s.Passes x ∨ ∃ d, x = .inr d ∧ s.mapper.keyToHdfsPath d = none) :
      Moved s [] .again s'
  | emit {e : ListEntry} {rest : List (ListEntry ⊕ Str)} {s' : SortedListing}
      (htook : Took s (.inl e) s' [] rest) (hpass : s.Passes (.inl e)) : Moved s [] (.emit e) s'
  | opened {d path : Str} {listing : DirListing} {dropped kept rest : List (ListEntry ⊕ Str)}
      {s' : SortedListing} (htook : Took s (.inr d) s' kept rest) (hpass : s.Passes (.inr d))
      (hpath : path = absPath (s.mapper.rootSegments ++ entrySegs (.inr d)))
      (hgenuine : Genuine (entrySegs (.inr d)) listing)
      (hperm : listing.entries.Perm (dropped ++ kept)) (hdropped : ∀ x ∈ dropped, ¬ s.Passes x) :
      Moved s [⟨path, .ok listing⟩] .again s'
  | unlisted {d path : Str} {err : HdfsError} {rest : List (ListEntry ⊕ Str)} {t : Turn}
      {s' : SortedListing} (htook : Took s (.inr d) s' [] rest) (hpass : s.Passes (.inr d))
      (hpath : path = absPath (s.mapper.rootSegments ++ entrySegs (.inr d)))
      (ht : t.emitted = []) : Moved s [⟨path, .error err⟩] t s'

/-- The path of a directory with a plain key. -/
theorem path_of_plain {m : PathMapper} {x : ListEntry ⊕ Str} (hx : PlainEntry x) :
    m.keyToHdfsPath (entryKey x) = some (absPath (m.rootSegments ++ entrySegs x)) := by
  have hplain : ∀ s ∈ m.rootSegments ++ entrySegs x, Plain s := fun s hs =>
    (List.mem_append.mp hs).elim (m.rootSegments_plain s) (hx s)
  have hne : m.rootSegments ++ entrySegs x ≠ m.rootSegments := fun h =>
    entrySegs_ne_nil x ((List.append_right_eq_self.mp h))
  have hpath := m.keyToHdfsPath_keyOf hplain (List.prefix_append _ _) hne
  rwa [m.keyOf_append, joinSlash_entrySegs] at hpath

/-- The call of a turn, if it makes one. -/
theorem log_eq_of_fst {lister : Str → Except HdfsError DirListing} {log : List Exchange}
    {visited : List Str} (hvisited : log.map Sigma.fst = visited)
    (h : ∀ e ∈ log, lister e.1 = e.2) : log = visited.map fun path => ⟨path, lister path⟩ := by
  subst hvisited
  rw [List.map_map]
  exact (List.map_id _).symm.trans (List.map_congr_left fun e he => by
    rw [Function.comp_apply, h e he]; rfl)

/-- A turn moves an orderly frontier on, if what it opens lists as a directory. -/
theorem turn_moved {s s' : SortedListing} {log : List Exchange} {t : Turn}
    (h : s.turn.Runs log (t, s')) (hfrontier : Antichain (pending s.heap))
    (hgenuine : ∀ d path listing, .inr d ∈ pending s.heap → ⟨path, .ok listing⟩ ∈ log →
      path = absPath (s.mapper.rootSegments ++ entrySegs (.inr d)) →
      Genuine (entrySegs (.inr d)) listing) : Moved s log t s' := by
  obtain ⟨lister, hturned, hlog⟩ := turn_runs h
  generalize hvisited : log.map Sigma.fst = visited at hturned
  have hlog := log_eq_of_fst hvisited hlog
  have htook : ∀ {x heap} (s' : SortedListing), Popped s.heap x heap → s'.heap = heap →
      Took s x s' [] (pending heap) := fun s' hpop hheap =>
    ⟨hpop.perm, by rw [hheap, List.nil_append], hfrontier.popped_lt hpop⟩
  have hmem : ∀ {x heap}, Popped s.heap x heap → x ∈ pending s.heap := fun hpop =>
    hpop.perm.mem_iff.mpr List.mem_cons_self
  have hpathEq : ∀ {d heap path}, Popped s.heap (.inr d) heap →
      s.mapper.keyToHdfsPath d = some path →
      path = absPath (s.mapper.rootSegments ++ entrySegs (.inr d)) := by
    intro d heap path hpop hpath
    have hplain := path_of_plain (m := s.mapper) (hfrontier.plain _ (hmem hpop))
    exact Option.some.inj (hpath.symm.trans hplain)
  cases hturned with
  | stop hnone => exact hlog ▸ .stop hnone hnone
  | skip hpop hskip => exact hlog ▸ .skip (htook _ hpop rfl) hskip
  | emit hpop hpass => exact hlog ▸ .emit (htook _ hpop rfl) hpass
  | passed hpop hpass hpath hlist hskip =>
    rw [List.map_singleton, hlist] at hlog
    exact hlog ▸ .unlisted (htook _ hpop rfl) hpass (hpathEq hpop hpath) rfl
  | failed hpop hpass hpath hlist hfail =>
    rw [List.map_singleton, hlist] at hlog
    exact hlog ▸ .unlisted (htook _ hpop rfl) hpass (hpathEq hpop hpath) rfl
  | @opened d path listing heap hpop hpass hpath hlist =>
    rw [List.map_singleton, hlist] at hlog
    have hd := hfrontier.plain _ (hmem hpop)
    have hgen : Genuine (entrySegs (.inr d)) listing :=
      hgenuine d path listing (hmem hpop) (hlog ▸ List.mem_singleton_self _) (hpathEq hpop hpath)
    obtain ⟨dropped, kept, hperm, hdropped, hpending⟩ :=
      pending_pushListing { s with heap } (hgen.siblings hd)
    refine hlog ▸ .opened ⟨hpop.perm, hpending, hfrontier.popped_lt hpop⟩ hpass
      (hpathEq hpop hpath) hgen hperm fun x hx hpass => ?_
    obtain ⟨marker, hmarker, hbehind⟩ := hdropped x hx
    exact hpass.2 marker hmarker hbehind

/-! ## Order -/

/-- Where a listing starts: below the root, at the directory that its prefix asks for. -/
structure Starts (fresh : SortedListing) (qs : List Str) : Prop extends IsFresh fresh where
  plain : ∀ s ∈ qs, Plain s
  start : fresh.start = absPath (fresh.mapper.rootSegments ++ qs)
  lists : fresh.mapper.listStart fresh.pre = some fresh.start

/-- The invariant of a walk: the frontier is orderly and was named by replies, and what was emitted
comes in strict order before everything pending. -/
structure Walking (fresh : SortedListing) (qs : List Str) (log : List Exchange)
    (out : List ListEntry) (s : SortedListing) : Prop where
  frontier : Antichain (pending s.heap)
  known : ∀ x ∈ pending s.heap, Names fresh.mapper log x
  below : ∀ d, .inr d ∈ pending s.heap →
    qs <+: entrySegs (.inr d) ∧ qs.length < (entrySegs (.inr d)).length
  sorted : out.Pairwise fun a b => a.key < b.key
  above : ∀ e ∈ out, ∀ x ∈ pending s.heap, e.key < outputKey x
  passes : ∀ e ∈ out, fresh.Passes (.inl e)
  named : ∀ e ∈ out, Names fresh.mapper log (.inl e)

variable {fresh : SortedListing} {qs : List Str} {log : List Exchange} {out : List ListEntry}
  {s : SortedListing}

/-- What a listing of the start puts on the frontier. -/
theorem pending_seeded (hstarts : fresh.Starts qs) (h : fresh.seed.Runs log (.ok s))
    (horderly : Orderly fresh.mapper log) :
    (pending s.heap = [] ∧ ∃ path, log = [⟨fresh.start, .error (.fileNotFound path)⟩]) ∨
    ∃ listing dropped ks, log = [⟨fresh.start, .ok listing⟩] ∧
      listing.entries.Perm (dropped ++ pending s.heap) ∧ (∀ x ∈ dropped, ¬ fresh.Passes x) ∧
      (∀ s ∈ ks, Plain s) ∧ Genuine ks listing ∧ (ks = qs ∨ ∀ d, .inr d ∉ listing.entries) := by
  rcases seed_runs h with ⟨listing, rfl, rfl⟩ | ⟨path, rfl, rfl⟩
  · have hmem : (⟨absPath (fresh.mapper.rootSegments ++ qs), .ok listing⟩ : Exchange) ∈
        [⟨fresh.start, .ok listing⟩] := by
      rw [← hstarts.start]
      exact List.mem_singleton_self _
    obtain ⟨ks, hks, hgen, hqs⟩ : ∃ ks, (∀ s ∈ ks, Plain s) ∧ Genuine ks listing ∧
        (ks = qs ∨ ∀ d, .inr d ∉ listing.entries) := by
      rcases horderly qs listing ⟨hstarts.plain, hmem⟩ with hgen | ⟨hfile, -⟩
      · exact ⟨qs, hstarts.plain, hgen, .inl rfl⟩
      · obtain ⟨hgen, hno⟩ := hfile.genuine hstarts.plain
        exact ⟨_, fun s hs => hstarts.plain s (List.mem_of_mem_dropLast hs), hgen, .inr hno⟩
    obtain ⟨dropped, kept, hperm, hdropped, hpending⟩ :=
      pending_pushListing { fresh with startSeeded := true } (hgen.siblings hks)
    have hempty : pending ({ fresh with startSeeded := true } : SortedListing).heap = [] := by
      simp [hstarts.heap]
    rw [hempty, List.append_nil] at hpending
    refine .inr ⟨listing, dropped, ks, rfl, by rwa [hpending], fun x hx hpass => ?_, hks, hgen, hqs⟩
    obtain ⟨marker, hmarker, hbehind⟩ := hdropped x hx
    exact hpass.2 marker hmarker hbehind
  · exact .inl ⟨by simp [hstarts.heap], path, rfl⟩

/-- Seeding starts a walk. -/
theorem walking_seeded (hstarts : fresh.Starts qs) (h : fresh.seed.Runs log (.ok s))
    (horderly : Orderly fresh.mapper log) : Walking fresh qs log [] s := by
  rcases pending_seeded hstarts h horderly with
    ⟨hnil, -⟩ | ⟨listing, dropped, ks, rfl, hperm, -, hks, hgen, hqs⟩
  · exact ⟨by rw [hnil]; exact ⟨by simp, .nil⟩, by simp [hnil], by simp [hnil], .nil, by simp, by simp,
      by simp⟩
  · have hall : Antichain (dropped ++ pending s.heap) := (Antichain.of_genuine hgen hks).of_perm hperm
    have hmem : ∀ x ∈ pending s.heap, x ∈ listing.entries := fun x hx =>
      hperm.mem_iff.mpr (List.mem_append_right _ hx)
    refine ⟨⟨fun x hx => hall.plain x (List.mem_append_right _ hx),
      (List.pairwise_append.mp hall.apart).2.1⟩, fun x hx => ?_, fun d hd => ?_, .nil, by simp, by simp,
      by simp⟩
    · refine ⟨qs, listing, ⟨hstarts.plain, ?_⟩, hmem x hx⟩
      rw [← hstarts.start]
      exact List.mem_singleton_self _
    · rcases hqs with rfl | hno
      · obtain ⟨name, -, hsegs⟩ := hgen.segs hks (hmem _ hd)
        rw [hsegs]
        exact ⟨List.prefix_append _ _, by simp⟩
      · exact absurd (hmem _ hd) (hno d)

section Took

variable {s' : SortedListing} {x : ListEntry ⊕ Str} {kept rest : List (ListEntry ⊕ Str)}

theorem Took.mem (h : Took s x s' kept rest) : x ∈ pending s.heap :=
  h.before.mem_iff.mpr List.mem_cons_self

theorem Took.mem_of_rest (h : Took s x s' kept rest) {y : ListEntry ⊕ Str} (hy : y ∈ rest) :
    y ∈ pending s.heap := h.before.mem_iff.mpr (List.mem_cons_of_mem _ hy)

theorem Took.mem_iff (h : Took s x s' kept rest) {y : ListEntry ⊕ Str} :
    y ∈ pending s'.heap ↔ y ∈ kept ∨ y ∈ rest := by rw [h.now, List.mem_append]

/-- An entry that nothing takes the place of leaves a walk in order. -/
theorem Walking.drop (h : Walking fresh qs log out s) (htook : Took s x s' [] rest)
    (log' : List Exchange) : Walking fresh qs (log ++ log') out s' := by
  have hmem : ∀ y ∈ pending s'.heap, y ∈ pending s.heap := fun y hy =>
    htook.mem_of_rest ((htook.mem_iff.mp hy).resolve_left List.not_mem_nil)
  have hnow : pending s'.heap = rest := htook.now
  refine ⟨?_, fun y hy => (h.known y (hmem y hy)).append log', fun d hd => h.below d (hmem _ hd),
    h.sorted, fun e he y hy => h.above e he y (hmem y hy), h.passes,
    fun e he => (h.named e he).append log'⟩
  rw [hnow]
  exact (h.frontier.of_perm htook.before).of_cons

/-- A file that is emitted is the last one so far. -/
theorem Walking.emit {e : ListEntry} (h : Walking fresh qs log out s)
    (htook : Took s (.inl e) s' [] rest) (hpass : fresh.Passes (.inl e)) :
    Walking fresh qs (log ++ []) (out ++ [e]) s' := by
  have hdrop := h.drop htook []
  have hnow : pending s'.heap = rest := htook.now
  refine { hdrop with
    sorted := List.pairwise_append.mpr ⟨h.sorted, List.pairwise_singleton _ _, ?_⟩
    above := ?_, passes := ?_, named := ?_ }
  · intro a ha b hb
    rw [List.mem_singleton.mp hb]
    exact h.above a ha _ htook.mem
  · intro a ha y hy
    rcases List.mem_append.mp ha with ha | ha
    · exact hdrop.above a ha y hy
    · rw [List.mem_singleton.mp ha]
      exact htook.first y (hnow ▸ hy)
  · intro a ha
    rcases List.mem_append.mp ha with ha | ha
    · exact h.passes a ha
    · rwa [List.mem_singleton.mp ha]
  · intro a ha
    rcases List.mem_append.mp ha with ha | ha
    · exact hdrop.named a ha
    · rw [List.mem_singleton.mp ha]
      exact (h.known _ htook.mem).append []

/-- The children of a directory come after everything emitted. -/
theorem Walking.openDir {d path : Str} {listing : DirListing} {dropped : List (ListEntry ⊕ Str)}
    (h : Walking fresh qs log out s) (htook : Took s (.inr d) s' kept rest)
    (hpath : path = absPath (fresh.mapper.rootSegments ++ entrySegs (.inr d)))
    (hgen : Genuine (entrySegs (.inr d)) listing) (hperm : listing.entries.Perm (dropped ++ kept)) :
    Walking fresh qs (log ++ [⟨path, .ok listing⟩]) out s' := by
  have hd := h.frontier.plain _ htook.mem
  have hkept : ∀ x ∈ kept, x ∈ listing.entries := fun x hx =>
    hperm.mem_iff.mpr (List.mem_append_right _ hx)
  have hall : Antichain (dropped ++ kept) := (Antichain.of_genuine hgen hd).of_perm hperm
  have hkeptAnti : Antichain kept :=
    ⟨fun x hx => hall.plain x (List.mem_append_right _ hx), (List.pairwise_append.mp hall.apart).2.1⟩
  have hchild : ∀ x ∈ kept, ∃ name, entrySegs x = entrySegs (.inr d) ++ [name] := by
    intro x hx
    obtain ⟨name, -, hsegs⟩ := hgen.segs hd (hkept x hx)
    exact ⟨name, hsegs⟩
  refine ⟨?_, fun y hy => ?_, fun d' hd' => ?_, h.sorted, fun e he y hy => ?_, h.passes,
    fun e he => (h.named e he).append _⟩
  · rw [htook.now]
    exact (h.frontier.of_perm htook.before).replace hkeptAnti hchild
  · rcases htook.mem_iff.mp hy with hy | hy
    · exact ⟨_, listing, ⟨hd, by simp [hpath]⟩, hkept y hy⟩
    · exact (h.known y (htook.mem_of_rest hy)).append _
  · rcases htook.mem_iff.mp hd' with hd' | hd'
    · obtain ⟨habove, hlen⟩ := h.below d htook.mem
      obtain ⟨name, hsegs⟩ := hchild _ hd'
      rw [hsegs, List.length_append]
      exact ⟨habove.trans (List.prefix_append _ _), Nat.lt_add_right _ hlen⟩
    · exact h.below d' (htook.mem_of_rest hd')
  · rcases htook.mem_iff.mp hy with hy | hy
    · obtain ⟨name, hsegs⟩ := hchild y hy
      have hlt : dirOutput d < outputKey y := dirOutput_lt_outputKey hd (hkeptAnti.plain y hy)
        (hsegs ▸ List.prefix_append _ _) (by rw [hsegs]; simp)
      exact lt_trans (h.above e he _ htook.mem) hlt
    · exact h.above e he y (htook.mem_of_rest hy)

end Took

/-- A path that was named as a directory is not answered as a file. -/
theorem Walking.genuine {log' : List Exchange} {d : Str} {listing : DirListing}
    (h : Walking fresh qs log out s) (hd : .inr d ∈ pending s.heap)
    (hlog : ⟨absPath (fresh.mapper.rootSegments ++ entrySegs (.inr d)), .ok listing⟩ ∈ log')
    (horderly : Orderly fresh.mapper (log ++ log')) : Genuine (entrySegs (.inr d)) listing := by
  refine (horderly _ listing ⟨h.frontier.plain _ hd, List.mem_append_right _ hlog⟩).resolve_right
    fun ⟨_, hno⟩ => ?_
  rw [joinSlash_entrySegs] at hno
  exact hno ((h.known _ hd).append log')

/-- A turn of a walk moves its frontier on. -/
theorem Walking.moved {s' : SortedListing} {log' : List Exchange} {t : Turn}
    (h : Walking fresh qs log out s) (hmapper : s.mapper = fresh.mapper)
    (hturn : s.turn.Runs log' (t, s')) (horderly : Orderly fresh.mapper (log ++ log')) :
    Moved s log' t s' := by
  apply turn_moved hturn h.frontier
  intro d path listing hd hlog hpath
  rw [hpath, hmapper] at hlog
  exact h.genuine hd hlog horderly

/-- A turn keeps a walk in order. -/
theorem Walking.turned {s' : SortedListing} {log' : List Exchange} {t : Turn}
    (h : Walking fresh qs log out s) (hmapper : s.mapper = fresh.mapper) (hpasses : ∀ x, s.Passes x → fresh.Passes x)
    (hmoved : Moved s log' t s') : Walking fresh qs (log ++ log') (out ++ t.emitted) s' := by
  cases hmoved with
  | stop hnone hnone' =>
    simp only [Turn.emitted, List.append_nil]
    exact ⟨by rw [hnone']; exact ⟨by simp, .nil⟩, by simp [hnone'], by simp [hnone'], h.sorted,
      by simp [hnone'], h.passes, h.named⟩
  | skip htook hskip => simpa [Turn.emitted] using h.drop htook []
  | emit htook hpass => exact h.emit htook (hpasses _ hpass)
  | opened htook hpass hpath hgen hperm hdropped =>
    simpa [Turn.emitted] using h.openDir htook (hmapper ▸ hpath) hgen hperm
  | unlisted htook hpass hpath ht => simpa [ht] using h.drop htook _

end SortedListing

end HdfsS3Gateway
