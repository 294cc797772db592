import HdfsS3Gateway.S3.ChangingPages
import Mathlib.Data.Finset.Prod
import Mathlib.Data.Fintype.Card

/-!
# The memory of a recursive listing

The merge is a depth-first walk: in key order everything below a directory comes right after it, so
while the cursors of a directory are on the heap, no sibling of it is open. All open directories lie on
one path from the start, and each has at most one cursor over its files and one over its directories.
So the heap is bounded by the depth of the tree, whatever its size, and also when the tree changes.
-/

namespace HdfsS3Gateway

open Interaction Lexicographic

/-- The directory that an entry lies in. -/
def home (x : ListEntry ⊕ Str) : List Str := (entrySegs x).dropLast

theorem home_eq {x : ListEntry ⊕ Str} {ks : List Str} {name : Str} (h : entrySegs x = ks ++ [name]) :
    home x = ks := by rw [home, h, List.dropLast_concat]

/-- The entry lies strictly deeper than the other one, on the same path, and comes before it. -/
structure Deeper (y x : ListEntry ⊕ Str) : Prop where
  nested : home x <+: home y
  ne : home x ≠ home y
  first : outputKey y < outputKey x

/-- Two pending entries of a depth-first walk: in one directory, or one deeper and first. -/
def OnePath (x y : ListEntry ⊕ Str) : Prop := home x = home y ∨ Deeper x y ∨ Deeper y x

theorem OnePath.symm {x y : ListEntry ⊕ Str} (h : OnePath x y) : OnePath y x :=
  h.elim (fun heq => .inl heq.symm) fun h => .inr h.symm

/-- What lies in a directory extends its segments. -/
theorem home_isPrefix (x : ListEntry ⊕ Str) : home x <+: entrySegs x := List.dropLast_prefix _

/-- Only what is below a directory extends its output. -/
theorem entrySegs_prefix_of_outputKey {d : Str} {z : ListEntry ⊕ Str} (hd : PlainEntry (.inr d))
    (h : dirOutput d <+: outputKey z) : entrySegs (.inr d) <+: entrySegs z := by
  cases z with
  | inl e =>
    obtain ⟨t, ht⟩ := h
    have hsplit := congrArg splitSlash ht
    rw [dirOutput, List.append_assoc, List.singleton_append, splitSlash_append] at hsplit
    exact ⟨_, hsplit⟩
  | inr d' => exact entrySegs_prefix_of_dirOutput hd h

/-- What is in a directory comes before everything that comes after the directory. -/
theorem child_first {d : Str} {y z : ListEntry ⊕ Str} (hd : PlainEntry (.inr d))
    (hy : home y = entrySegs (.inr d)) (happart : Apart (.inr d) z) (hfirst : dirOutput d < outputKey z) :
    outputKey y < outputKey z := by
  have hne : entrySegs (.inr d) ≠ entrySegs y := fun heq => by
    have hlen := congrArg List.length (hy.trans heq)
    rw [home, List.length_dropLast] at hlen
    have hpos := List.length_pos_iff.mpr (entrySegs_ne_nil y)
    omega
  have hpre := dirOutput_joinSlash_prefix (entrySegs_ne_nil _) (hy ▸ home_isPrefix y) hne
  rw [joinSlash_entrySegs, joinSlash_entrySegs, entryKey_inr] at hpre
  have hout : entryKey y <+: outputKey y := by
    cases y with
    | inl e => exact List.prefix_rfl
    | inr d' => exact List.prefix_append _ _
  exact extension_lt (hpre.trans hout) hfirst.le
    fun hextends => happart.1 (entrySegs_prefix_of_outputKey hd hextends)

/-- The entry in front of a cursor has not been passed. -/
theorem Cursor.entry_mem_remaining (c : Cursor) : c.entry ∈ c.remaining := by
  rw [c.remaining_eq]
  exact List.mem_cons_self

namespace SortedListing

/-! ## Heaps of a depth-first walk -/

/-- The cursors of a depth-first walk. -/
structure DepthFirst (heap : List Cursor) : Prop where
  siblings : ∀ c ∈ heap, ∀ x ∈ c.remaining, home x = home c.entry
  sides : heap.Pairwise fun c c' => home c.entry = home c'.entry → c.files ≠ c'.files
  path : ∀ x ∈ pending heap, ∀ y ∈ pending heap, OnePath x y

/-- The entry in front of a cursor is pending. -/
theorem entry_mem_pending {heap : List Cursor} {c : Cursor} (hc : c ∈ heap) : c.entry ∈ pending heap :=
  List.mem_flatMap.mpr ⟨c, hc, c.entry_mem_remaining⟩

/-- An advanced cursor has what is behind the front. -/
theorem advance_mem {c c' : Cursor} (h : c' ∈ c.advance.toList) :
    c'.files = c.files ∧ ∀ x ∈ c'.remaining, x ∈ c.remaining := by
  constructor
  · unfold Cursor.advance at h
    split at h
    · rw [Option.mem_toList.mp h |> Option.some.inj |>.symm]
    · contradiction
  · intro x hx
    rw [c.remaining_eq]
    exact List.mem_cons_of_mem _ (List.mem_flatMap.mpr ⟨c', h, hx⟩)

/-- A cursor over a listing has entries of the listing in front of it. -/
theorem cursorAt_mem {listing : DirListing} {files : Bool} {idx : ℕ} {c : Cursor}
    (h : c ∈ (cursorAt listing files idx).toList) :
    c.files = files ∧ ∀ x ∈ c.remaining, x ∈ listing.entries := by
  by_cases hbound : idx < if files then listing.files.length else listing.dirs.length
  · rw [cursorAt, dif_pos hbound] at h
    obtain rfl : (⟨listing, files, idx, hbound⟩ : Cursor) = c :=
      Option.some.inj (Option.mem_toList.mp h)
    refine ⟨rfl, fun x hx => ?_⟩
    have hside := List.mem_of_mem_drop hx
    cases files with
    | true => exact List.mem_append_left _ hside
    | false => exact List.mem_append_right _ hside
  · rw [cursorAt, dif_neg hbound] at h
    contradiction

/-- One cursor is in any relation with itself only. -/
theorem toList_pairwise {r : Cursor → Cursor → Prop} (c : Option Cursor) : c.toList.Pairwise r := by
  cases c with
  | none => exact .nil
  | some c => exact List.pairwise_singleton _ _

namespace DepthFirst

variable {heap rest : List Cursor} {least : Cursor}

theorem of_perm (h : DepthFirst heap) (hperm : heap.Perm rest) : DepthFirst rest := by
  have hmem : ∀ x ∈ pending rest, x ∈ pending heap := fun x hx =>
    (hperm.flatMap_right Cursor.remaining).mem_iff.mpr hx
  refine ⟨fun c hc => h.siblings c (hperm.mem_iff.mpr hc), ?_,
    fun x hx y hy => h.path x (hmem x hx) y (hmem y hy)⟩
  exact hperm.pairwise h.sides fun hne heq => (hne heq.symm).symm

/-- Advancing the least cursor keeps a walk depth-first. -/
theorem popped (h : DepthFirst heap) (hpop : popMin heap = some (least, rest)) :
    DepthFirst (least.advance.toList ++ rest) := by
  have hcons := h.of_perm (popMin_eq_some hpop).1
  have hmem : ∀ x ∈ pending (least.advance.toList ++ rest), x ∈ pending heap := fun x hx =>
    (pending_popMin hpop).1.mem_iff.mpr (List.mem_cons_of_mem _ hx)
  have hadvanced : ∀ c ∈ least.advance.toList, home c.entry = home least.entry := fun c hc =>
    hcons.siblings least List.mem_cons_self _
      ((advance_mem hc).2 _ c.entry_mem_remaining)
  obtain ⟨hleast, hrest⟩ := List.pairwise_cons.mp hcons.sides
  refine ⟨fun c hc x hx => ?_, ?_, fun x hx y hy => h.path x (hmem x hx) y (hmem y hy)⟩
  · rcases List.mem_append.mp hc with hc | hc
    · rw [hadvanced c hc]
      exact hcons.siblings least List.mem_cons_self x ((advance_mem hc).2 x hx)
    · exact hcons.siblings c (List.mem_cons_of_mem _ hc) x hx
  · refine List.pairwise_append.mpr ⟨toList_pairwise _, hrest, fun c hc c' hc' heq => ?_⟩
    rw [(advance_mem hc).1]
    exact hleast c' hc' ((hadvanced c hc).symm.trans heq)

/-- So does putting two cursors over one directory in front, where nothing of it is pending. -/
theorem cursors (h : DepthFirst heap) {ks : List Str} {listing : DirListing} (fs ds : ℕ)
    (hhome : ∀ y ∈ listing.entries, home y = ks)
    (hother : ∀ z ∈ pending heap, home z ≠ ks ∧ ∀ y ∈ listing.entries, OnePath y z) :
    DepthFirst ((cursorAt listing true fs).toList ++ ((cursorAt listing false ds).toList ++ heap)) := by
  have hentry : ∀ files idx, ∀ c ∈ (cursorAt listing files idx).toList, home c.entry = ks :=
    fun files idx c hc => hhome _ ((cursorAt_mem hc).2 _ c.entry_mem_remaining)
  have hnew : ∀ y ∈ pending ((cursorAt listing true fs).toList ++
      ((cursorAt listing false ds).toList ++ heap)), y ∈ listing.entries ∨ y ∈ pending heap := by
    intro y hy
    simp only [pending_append, List.mem_append] at hy
    rcases hy with hy | hy | hy
    · obtain ⟨c, hc, hyc⟩ := List.mem_flatMap.mp hy
      exact .inl ((cursorAt_mem hc).2 y hyc)
    · obtain ⟨c, hc, hyc⟩ := List.mem_flatMap.mp hy
      exact .inl ((cursorAt_mem hc).2 y hyc)
    · exact .inr hy
  have hheap : ∀ files idx, ∀ c ∈ (cursorAt listing files idx).toList, ∀ c' ∈ heap,
      home c.entry = home c'.entry → c.files ≠ c'.files := fun files idx c hc c' hc' heq =>
    absurd (heq.symm.trans (hentry files idx c hc)) (hother _ (entry_mem_pending hc')).1
  refine ⟨fun c hc x hx => ?_, ?_, fun x hx y hy => ?_⟩
  · simp only [List.mem_append] at hc
    rcases hc with hc | hc | hc
    · exact (hhome x ((cursorAt_mem hc).2 x hx)).trans (hentry _ _ c hc).symm
    · exact (hhome x ((cursorAt_mem hc).2 x hx)).trans (hentry _ _ c hc).symm
    · exact h.siblings c hc x hx
  · refine List.pairwise_append.mpr ⟨toList_pairwise _, List.pairwise_append.mpr
      ⟨toList_pairwise _, h.sides, hheap _ _⟩, fun c hc c' hc' heq => ?_⟩
    rcases List.mem_append.mp hc' with hc' | hc'
    · rw [(cursorAt_mem hc).1, (cursorAt_mem hc').1]
      exact Bool.noConfusion
    · exact hheap _ _ c hc c' hc' heq
  · rcases hnew x hx with hx | hx <;> rcases hnew y hy with hy | hy
    · exact .inl ((hhome x hx).trans (hhome y hy).symm)
    · exact (hother y hy).2 x hx
    · exact ((hother x hx).2 y hy).symm
    · exact h.path x hx y hy

/-- So does listing the directory that was just taken off the heap. -/
theorem opened {d : Str} {listing : DirListing} (h : DepthFirst heap) (fs ds : ℕ)
    (hd : PlainEntry (.inr d)) (hgen : Genuine (entrySegs (.inr d)) listing)
    (happart : ∀ z ∈ pending heap, Apart (.inr d) z)
    (hfirst : ∀ z ∈ pending heap, dirOutput d < outputKey z)
    (hpath : ∀ z ∈ pending heap, OnePath (.inr d) z) :
    DepthFirst ((cursorAt listing true fs).toList ++ ((cursorAt listing false ds).toList ++ heap)) := by
  have hhome : ∀ y ∈ listing.entries, home y = entrySegs (.inr d) := by
    intro y hy
    obtain ⟨name, -, hsegs⟩ := hgen.segs hd hy
    exact home_eq hsegs
  refine h.cursors fs ds hhome fun z hz => ⟨fun heq => ?_, fun y hy => ?_⟩
  · exact (happart z hz).1 (heq ▸ home_isPrefix z)
  · -- what is pending lies in a directory on the way to the one that is opened, which comes before it
    have habove : home z <+: home (.inr d) := by
      rcases hpath z hz with heq | hdeeper | hdeeper
      · exact heq ▸ List.prefix_rfl
      · exact hdeeper.nested
      · exact absurd hdeeper.first (not_lt.mpr (hfirst z hz).le)
    have hnested : home z <+: home y := by
      rw [hhome y hy]
      exact habove.trans (home_isPrefix _)
    refine .inr (.inl ⟨hnested, fun heq => ?_, child_first hd (hhome y hy) (happart z hz) (hfirst z hz)⟩)
    have hlen := (heq ▸ habove).length_le
    rw [hhome y hy, home, List.length_dropLast] at hlen
    have hpos := List.length_pos_iff.mpr (entrySegs_ne_nil (.inr d))
    omega

end DepthFirst

/-! ## Runs -/

/-- What pushing a listing does to the heap. -/
theorem pushListing_heap (s : SortedListing) (listing : DirListing) :
    ∃ fs ds, (s.pushListing listing).heap = (cursorAt listing true fs).toList ++
      ((cursorAt listing false ds).toList ++ s.heap) := by
  unfold pushListing
  cases s.after with
  | none => exact ⟨_, _, rfl⟩
  | some marker => exact ⟨_, _, rfl⟩

/-- What a turn does to the heap, with the reply it got. -/
inductive HeapTurned (s : SortedListing) : List Exchange → List Cursor → Prop
  | same : HeapTurned s [] s.heap
  | popped {log : List Exchange} {least : Cursor} {rest : List Cursor}
      (hpop : popMin s.heap = some (least, rest)) : HeapTurned s log (least.advance.toList ++ rest)
  | opened {least : Cursor} {rest : List Cursor} {d path : Str} {listing : DirListing} (fs ds : ℕ)
      (hpop : popMin s.heap = some (least, rest)) (hx : least.entry = .inr d)
      (hpath : s.mapper.keyToHdfsPath d = some path) :
      HeapTurned s [⟨path, .ok listing⟩] ((cursorAt listing true fs).toList ++
        ((cursorAt listing false ds).toList ++ (least.advance.toList ++ rest)))

variable {fresh s s' : SortedListing} {qs : List Str} {log : List Exchange} {out : List ListEntry}

/-- Opening a directory adds the cursors of its listing, or nothing. -/
theorem openDir_heap {path : Str} {t : Turn} (h : (s.openDir path).Runs log (t, s')) :
    s'.heap = s.heap ∨ ∃ listing fs ds, log = [⟨path, .ok listing⟩] ∧
      s'.heap = (cursorAt listing true fs).toList ++
        ((cursorAt listing false ds).toList ++ s.heap) := by
  unfold openDir at h
  rw [Prog.perform_bind, Prog.runs_call] at h
  obtain ⟨reply, rest, rfl, hrest⟩ := h
  cases reply with
  | ok listing =>
    obtain ⟨rfl, heq⟩ := Prog.runs_ret.mp hrest
    obtain ⟨-, rfl⟩ := Prod.mk.inj heq
    obtain ⟨fs, ds, hheap⟩ := s.pushListing_heap listing
    exact .inr ⟨listing, fs, ds, rfl, hheap⟩
  | error err =>
    left
    simp only [] at hrest
    split at hrest
    · exact (congrArg (heap ∘ Prod.snd) (Prog.runs_ret.mp hrest).2).symm
    · split at hrest <;> exact (congrArg (heap ∘ Prod.snd) (Prog.runs_ret.mp hrest).2).symm

/-- Every turn is one of these. -/
theorem turn_heap {t : Turn} (h : s.turn.Runs log (t, s')) : HeapTurned s log s'.heap := by
  cases hpopped : popMin s.heap with
  | none =>
    rw [turn, hpopped] at h
    obtain ⟨rfl, heq⟩ := Prog.runs_ret.mp h
    obtain ⟨-, rfl⟩ := Prod.mk.inj heq
    exact .same
  | some popped =>
    obtain ⟨least, rest⟩ := popped
    have hpop : ∀ t', s.turn = pure (t', { s with heap := least.advance.toList ++ rest }) →
        HeapTurned s log s'.heap := by
      intro t' ht'
      rw [ht'] at h
      obtain ⟨-, heq⟩ := Prog.runs_ret.mp h
      obtain ⟨-, rfl⟩ := Prod.mk.inj heq
      exact .popped hpopped
    by_cases hpass : s.Passes least.entry
    · cases hx : least.entry with
      | inl e => exact hpop _ (turn_of_file hpopped hx (hx ▸ hpass))
      | inr d =>
        have hturn := turn_of_dir hpopped hx (hx ▸ hpass)
        cases hpath : s.mapper.keyToHdfsPath d with
        | none => exact hpop _ (by rw [hturn, hpath])
        | some path =>
          rw [hturn, hpath] at h
          rcases openDir_heap h with hheap | ⟨listing, fs, ds, rfl, hheap⟩
          · rw [hheap]
            exact .popped hpopped
          · rw [hheap]
            exact .opened fs ds hpopped hx hpath
    · exact hpop _ (turn_of_not_passes hpopped hpass)

/-- The start gives the first two cursors. -/
theorem depthFirst_seeded (hstarts : fresh.Starts qs) (h : fresh.seed.Runs log (.ok s))
    (horderly : Orderly fresh.mapper log) : DepthFirst s.heap := by
  have hnil : DepthFirst [] := ⟨by simp, .nil, by simp⟩
  rcases seed_runs h with ⟨listing, hlog, rfl⟩ | ⟨path, -, rfl⟩
  · obtain ⟨fs, ds, hheap⟩ := pushListing_heap { fresh with startSeeded := true } listing
    rcases pending_seeded hstarts h horderly with
      ⟨-, path, hmissing⟩ | ⟨listing', -, ks, hlog', -, -, hks, hgen, -⟩
    · simp [hlog] at hmissing
    · obtain rfl : listing = listing' := by simpa [hlog] using hlog'
      rw [hheap]
      have hhome : ∀ y ∈ listing.entries, home y = ks := by
        intro y hy
        obtain ⟨name, -, hsegs⟩ := hgen.segs hks hy
        exact home_eq hsegs
      exact (hstarts.heap ▸ hnil : DepthFirst fresh.heap).cursors fs ds hhome (by simp [hstarts.heap])
  · rw [show ({ fresh with startSeeded := true, exhausted := true } : SortedListing).heap = [] from
      hstarts.heap]
    exact hnil

/-- Every state that a run reaches is one of a depth-first walk. -/
theorem Reached.depthFirst (h : Reached fresh log out s) (hstarts : fresh.Starts qs)
    (horderly : Orderly fresh.mapper log) : DepthFirst s.heap := by
  induction h with
  | seeded h => exact depthFirst_seeded hstarts h horderly
  | @turned log log' out s s' t h hturn ih =>
    have hwalking := h.walking hstarts horderly.of_append
    have hdepth := ih horderly.of_append
    have hmapper := (h.seeded_of_fresh hstarts.toIsFresh).1
    have hturned := turn_heap hturn
    generalize s'.heap = heap' at hturned
    cases hturned with
    | same => exact hdepth
    | popped hpop => exact hdepth.popped hpop
    | @opened least rest d path listing fs ds hpop hx hpath =>
      obtain ⟨hperm, hleast⟩ := pending_popMin hpop
      rw [hx] at hperm hleast
      have hd : .inr d ∈ pending s.heap := hperm.mem_iff.mpr List.mem_cons_self
      have hplain := hwalking.frontier.plain _ hd
      have hmem : ∀ z ∈ pending (least.advance.toList ++ rest), z ∈ pending s.heap := fun z hz =>
        hperm.mem_iff.mpr (List.mem_cons_of_mem _ hz)
      have hsame : path = absPath (fresh.mapper.rootSegments ++ entrySegs (.inr d)) := by
        rw [hmapper] at hpath
        exact Option.some.inj (hpath.symm.trans (path_of_plain (m := fresh.mapper) hplain))
      have hlog : (⟨absPath (fresh.mapper.rootSegments ++ entrySegs (.inr d)), .ok listing⟩ : Exchange) ∈
          [⟨path, .ok listing⟩] := by
        rw [hsame]
        exact List.mem_singleton_self _
      have hgen := hwalking.genuine hd hlog horderly
      have happart := (List.pairwise_cons.mp (hwalking.frontier.of_perm hperm).apart).1
      exact (hdepth.popped hpop).opened fs ds hplain hgen happart
        (hwalking.frontier.popped_lt ⟨hperm, hleast⟩) fun z hz => hdepth.path _ hd z (hmem z hz)

/-! ## The bound -/

/-- Nothing pending is above the start, or only files of one directory are. -/
theorem Reached.below_start (h : Reached fresh log out s) (hstarts : fresh.Starts qs)
    (horderly : Orderly fresh.mapper log) : (∀ x ∈ pending s.heap, qs.length ≤ (home x).length) ∨
      ∃ ks, ∀ x ∈ pending s.heap, home x = ks ∧ ∀ d, x ≠ .inr d := by
  induction h with
  | @seeded log s h =>
    rcases pending_seeded hstarts h horderly with
      ⟨hnil, -⟩ | ⟨listing, dropped, ks, -, hperm, -, hks, hgen, hqs⟩
    · exact .inl (by simp [hnil])
    · have hmem : ∀ x ∈ pending s.heap, x ∈ listing.entries ∧ home x = ks := by
        intro x hx
        have hx := hperm.mem_iff.mpr (List.mem_append_right _ hx)
        obtain ⟨name, -, hsegs⟩ := hgen.segs hks hx
        exact ⟨hx, home_eq hsegs⟩
      rcases hqs with rfl | hno
      · exact .inl fun x hx => (hmem x hx).2 ▸ le_rfl
      · exact .inr ⟨ks, fun x hx => ⟨(hmem x hx).2, fun d hd => hno d (hd ▸ (hmem x hx).1)⟩⟩
  | @turned log log' out s s' t h hturn ih =>
    have hwalking := h.walking hstarts horderly.of_append
    have hold := ih horderly.of_append
    have hmapper := (h.seeded_of_fresh hstarts.toIsFresh).1
    have hless (hmem : ∀ y ∈ pending s'.heap, y ∈ pending s.heap) :
        (∀ x ∈ pending s'.heap, qs.length ≤ (home x).length) ∨
          ∃ ks, ∀ x ∈ pending s'.heap, home x = ks ∧ ∀ d, x ≠ .inr d :=
      hold.imp (fun h x hx => h x (hmem x hx)) fun ⟨ks, h⟩ => ⟨ks, fun x hx => h x (hmem x hx)⟩
    have htook : ∀ {x rest}, Took s x s' [] rest → ∀ y ∈ pending s'.heap, y ∈ pending s.heap :=
      fun htook y hy => htook.mem_of_rest ((htook.mem_iff.mp hy).resolve_left List.not_mem_nil)
    cases hwalking.moved hmapper hturn horderly with
    | stop hnone hnone' => exact .inl (by simp [hnone'])
    | skip h => exact hless (htook h)
    | emit h => exact hless (htook h)
    | unlisted h => exact hless (htook h)
    | opened htook hpass hpath hgen hperm hdropped =>
      rcases hold with habove | ⟨ks, hfiles⟩
      · refine .inl fun x hx => ?_
        rcases htook.mem_iff.mp hx with hx | hx
        · have hx := hperm.mem_iff.mpr (List.mem_append_right _ hx)
          obtain ⟨name, -, hsegs⟩ := hgen.segs (hwalking.frontier.plain _ htook.mem) hx
          rw [home_eq hsegs]
          exact (hwalking.below _ htook.mem).2.le
        · exact habove x (htook.mem_of_rest hx)
      · exact absurd rfl ((hfiles _ htook.mem).2 _)

/-- What is pending lies in a directory that was listed, or above one. -/
theorem Walking.home_le (h : Walking fresh qs log out s) (horderly : Orderly fresh.mapper log)
    {depth : ℕ} (hdepth : ∀ ks listing, Lists fresh.mapper log ks listing → ks.length ≤ depth) :
    ∀ x ∈ pending s.heap, (home x).length ≤ depth := by
  intro x hx
  obtain ⟨ks, listing, hlists, hentry⟩ := h.known x hx
  have hle := hdepth ks listing hlists
  rcases horderly ks listing hlists with hgen | ⟨hfile, -⟩
  · obtain ⟨name, -, hsegs⟩ := hgen.segs hlists.1 hentry
    rwa [home_eq hsegs]
  · obtain ⟨name, -, hsegs⟩ := (hfile.genuine hlists.1).1.segs
      (fun s hs => hlists.1 s (List.mem_of_mem_dropLast hs)) hentry
    rw [home_eq hsegs, List.length_dropLast]
    exact (Nat.sub_le _ _).trans hle

/-- Directories in one line lie on one path. -/
theorem exists_path {homes : List (List Str)}
    (h : ∀ a ∈ homes, ∀ b ∈ homes, a <+: b ∨ b <+: a) : ∃ path, ∀ a ∈ homes, a <+: path := by
  induction homes with
  | nil => exact ⟨[], by simp⟩
  | cons a homes ih =>
    obtain ⟨path, hpath⟩ := ih fun b hb c hc =>
      h b (List.mem_cons_of_mem _ hb) c (List.mem_cons_of_mem _ hc)
    by_cases hall : ∀ b ∈ homes, b <+: a
    · exact ⟨a, by simpa using hall⟩
    · -- some directory is not above the first one, so it is below it
      obtain ⟨b, hb, hba⟩ : ∃ b ∈ homes, ¬ b <+: a := by simpa using hall
      have hab := (h a List.mem_cons_self b (List.mem_cons_of_mem _ hb)).resolve_right hba
      refine ⟨path, fun c hc => ?_⟩
      rcases List.mem_cons.mp hc with rfl | hc
      · exact hab.trans (hpath b hb)
      · exact hpath c hc

/-- Two pending entries lie in nested directories. -/
theorem DepthFirst.nested {heap : List Cursor} (h : DepthFirst heap) {x y : ListEntry ⊕ Str}
    (hx : x ∈ pending heap) (hy : y ∈ pending heap) : home x <+: home y ∨ home y <+: home x := by
  rcases h.path x hx y hy with heq | hdeeper | hdeeper
  · exact .inl (heq ▸ List.prefix_rfl)
  · exact .inr hdeeper.nested
  · exact .inl hdeeper.nested

/-- A depth-first walk over so many levels has at most two cursors for each. -/
theorem DepthFirst.length_le {heap : List Cursor} (h : DepthFirst heap) {base depth : ℕ}
    (hbase : ∀ x ∈ pending heap, base ≤ (home x).length)
    (hdepth : ∀ x ∈ pending heap, (home x).length ≤ base + depth) : heap.length ≤ 2 * (depth + 1) := by
  have hnodup : (heap.map fun c => ((home c.entry).length - base, c.files)).Nodup := by
    refine List.pairwise_map.mpr (h.sides.imp_of_mem fun {c c'} hc hc' hsides heq => ?_)
    obtain ⟨hlen, hfiles⟩ := Prod.mk.inj heq
    have hc := entry_mem_pending hc
    have hc' := entry_mem_pending hc'
    have hlen : (home c.entry).length = (home c'.entry).length := by
      have hle := hbase _ hc
      have hle' := hbase _ hc'
      omega
    refine hsides ?_ hfiles
    exact (h.nested hc hc').elim (fun hp => hp.eq_of_length hlen) fun hp =>
      (hp.eq_of_length hlen.symm).symm
  have hsub : (heap.map fun c => ((home c.entry).length - base, c.files)).toFinset ⊆
      Finset.range (depth + 1) ×ˢ Finset.univ := by
    intro level hlevel
    obtain ⟨c, hc, rfl⟩ := List.mem_map.mp (List.mem_toFinset.mp hlevel)
    have hle := hdepth _ (entry_mem_pending hc)
    simp only [Finset.mem_product, Finset.mem_range, Finset.mem_univ, and_true]
    omega
  have hcard := Finset.card_le_card hsub
  rw [List.toFinset_card_of_nodup hnodup, List.length_map, Finset.card_product, Finset.card_range,
    Finset.card_univ, Fintype.card_bool] at hcard
  omega

/-- The heap of a recursive listing holds one path of the tree. Whatever HDFS answers between two
calls, so long as the replies are orderly, all cursors in a state that the engine reaches are of
directories on one path, no directory has two over its files or two over its directories, and there
are at most two for each level of the directories listed so far. -/
theorem heap_on_one_path (hstarts : fresh.Starts qs) (horderly : Orderly fresh.mapper log)
    (h : Reached fresh log out s) {depth : ℕ}
    (hdepth : ∀ ks listing, Lists fresh.mapper log ks listing → ks.length ≤ qs.length + depth) :
    (∃ path, ∀ c ∈ s.heap, ∀ x ∈ c.remaining, home x <+: path) ∧
      (s.heap.Pairwise fun c c' => home c.entry = home c'.entry → c.files ≠ c'.files) ∧
      s.heap.length ≤ 2 * (depth + 1) := by
  have hfirst := h.depthFirst hstarts horderly
  refine ⟨?_, hfirst.sides, ?_⟩
  · have hline : ∀ a ∈ (pending s.heap).map home, ∀ b ∈ (pending s.heap).map home,
        a <+: b ∨ b <+: a := by
      intro a ha b hb
      obtain ⟨x, hx, rfl⟩ := List.mem_map.mp ha
      obtain ⟨y, hy, rfl⟩ := List.mem_map.mp hb
      exact hfirst.nested hx hy
    obtain ⟨path, hpath⟩ := exists_path hline
    exact ⟨path, fun c hc x hx =>
      hpath _ (List.mem_map_of_mem (List.mem_flatMap.mpr ⟨c, hc, hx⟩))⟩
  · rcases h.below_start hstarts horderly with hbelow | ⟨ks, hfiles⟩
    · exact hfirst.length_le hbelow ((h.walking hstarts horderly).home_le horderly hdepth)
    · have hbase : ∀ x ∈ pending s.heap, ks.length ≤ (home x).length := fun x hx =>
        (hfiles x hx).1 ▸ le_rfl
      have hlevel := hfirst.length_le hbase fun x hx =>
        (congrArg List.length (hfiles x hx).1).le.trans (Nat.le_add_right _ 0)
      omega

/-- A file and a directory in the root of a bucket. -/
def twoChildren : DirListing where
  files := [⟨[0x61], 1, 1⟩]
  dirs := [[0x62]]
  files_sorted := List.pairwise_singleton _ _
  dirs_sorted := List.pairwise_singleton _ _

/-- A bucket with the whole of HDFS. -/
def bucketMapper : PathMapper := .new { hdfsRoot := [slash], bucketName := [0x62] }

/-- They take two cursors. -/
theorem heap_on_one_path_two :
    ∃ s, Reached (new [slash] [] none bucketMapper) [⟨[slash], .ok twoChildren⟩] [] s ∧
      s.heap ≠ [] ∧ s.heap.length ≤ 2 * (0 + 1) := by
  have hstarts : (new [slash] [] none bucketMapper).Starts [] :=
    { isFresh_new _ _ _ _ with plain := by simp, start := by decide, lists := by decide }
  have hlists : ∀ ks listing, Lists bucketMapper [⟨[slash], .ok twoChildren⟩] ks listing →
      ks = [] ∧ listing = twoChildren := by
    rintro ks listing ⟨hplain, hmem⟩
    obtain ⟨hpath, hreply⟩ := Sigma.mk.inj (List.mem_singleton.mp hmem)
    exact ⟨absPath_injective hplain (by simp) hpath, Except.ok.inj (eq_of_heq hreply)⟩
  have horderly : Orderly bucketMapper [⟨[slash], .ok twoChildren⟩] := by
    intro ks listing h
    obtain ⟨rfl, rfl⟩ := hlists ks listing h
    refine .inl ⟨fun x hx => ?_, by decide⟩
    rcases List.mem_cons.mp hx with rfl | hx
    · exact ⟨[0x61], by decide, rfl⟩
    · rw [List.mem_singleton.mp hx]
      exact ⟨[0x62], by decide, rfl⟩
  have hreached : Reached (new [slash] [] none bucketMapper)
      [⟨[slash], .ok twoChildren⟩] [] _ := .seeded (Prog.runs_call.mpr
        ⟨.ok twoChildren, [], rfl, Prog.runs_ret.mpr ⟨rfl, rfl⟩⟩)
  refine ⟨_, hreached, List.cons_ne_nil _ _, ?_⟩
  exact (heap_on_one_path hstarts horderly hreached fun ks listing h =>
    (hlists ks listing h).1 ▸ le_rfl).2.2

end SortedListing

end HdfsS3Gateway
