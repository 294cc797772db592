import HdfsS3Gateway.S3.SortedListing

/-!
# The frontier of the sorted merge

The heap of cursors stands for the entries that its cursors have not passed yet. Popping a cursor
and advancing it takes a least entry out of the frontier, pushing a listing adds the entries that
the marker does not rule out, and `Turned` says, on the frontier alone, everything that one turn of
the loop can do. Nothing later looks at a heap or a cursor again.
-/

namespace HdfsS3Gateway

open Interaction Lexicographic SortedSearch

/-! ## Entries -/

/-- The key that an entry has in the order of the outputs: its own, or the one with a separator. -/
def outputKey : ListEntry ⊕ Str → Str := Sum.elim ListEntry.key dirOutput

/-- The key of an entry without a separator. -/
def entryKey : ListEntry ⊕ Str → Str := Sum.elim ListEntry.key id

@[simp] theorem outputKey_inl (e : ListEntry) : outputKey (.inl e) = e.key := rfl

@[simp] theorem outputKey_inr (d : Str) : outputKey (.inr d) = dirOutput d := rfl

@[simp] theorem entryKey_inl (e : ListEntry) : entryKey (.inl e) = e.key := rfl

@[simp] theorem entryKey_inr (d : Str) : entryKey (.inr d) = d := rfl

namespace DirListing

/-- One of the two sorted arrays of a listing. -/
def side (listing : DirListing) (files : Bool) : List (ListEntry ⊕ Str) :=
  if files then listing.files.map .inl else listing.dirs.map .inr

/-- All entries of a listing. -/
def entries (listing : DirListing) : List (ListEntry ⊕ Str) :=
  listing.side true ++ listing.side false

/-- Both arrays are in the order of the outputs. -/
theorem side_sorted (listing : DirListing) (files : Bool) :
    (listing.side files).Pairwise fun x y => outputKey x ≤ outputKey y := by
  cases files
  · exact List.pairwise_map.mpr listing.dirs_sorted
  · exact List.pairwise_map.mpr listing.files_sorted

end DirListing

/-! ## Cursors -/

namespace Cursor

/-- The entries that a cursor has not passed yet, the front included. -/
def remaining (c : Cursor) : List (ListEntry ⊕ Str) := (c.listing.side c.files).drop c.idx

/-- The comparison of two cursors is the order of the outputs in front of them. -/
theorem cmp_eq (c other : Cursor) :
    c.cmp other = cmpList (outputKey c.entry) (outputKey other.entry) := by
  obtain ⟨l, files, i, h⟩ := c
  obtain ⟨l', files', i', h'⟩ := other
  cases files <;> cases files' <;>
    simp [cmp, front, entry, cmpDirKeys_eq, cmpFileDir_eq, cmpList_swap]

/-- The length of a cursor is the length of its array. -/
theorem len_eq (c : Cursor) : c.len = (c.listing.side c.files).length := by
  obtain ⟨l, files, i, h⟩ := c
  cases files <;> simp [len, DirListing.side]

/-- The front entry comes first, then what the advanced cursor has in front of it. -/
theorem remaining_eq (c : Cursor) :
    c.remaining = c.entry :: c.advance.toList.flatMap remaining := by
  have hlt : c.idx < (c.listing.side c.files).length := c.len_eq ▸ c.in_bounds
  have hentry : (c.listing.side c.files)[c.idx] = c.entry := by
    obtain ⟨l, files, i, h⟩ := c
    cases files <;> simp [DirListing.side, entry]
  rw [remaining, List.drop_eq_getElem_cons hlt, hentry, advance]
  split
  · simp [remaining]
  · rename_i hend
    rw [len_eq] at hend
    simp [List.drop_eq_nil_of_le (Nat.le_of_not_lt hend)]

/-- No entry of a cursor comes before its front. -/
theorem entry_le (c : Cursor) {x : ListEntry ⊕ Str} (hx : x ∈ c.remaining) :
    outputKey c.entry ≤ outputKey x := by
  have hsorted : c.remaining.Pairwise fun x y => outputKey x ≤ outputKey y :=
    (c.listing.side_sorted c.files).sublist (List.drop_sublist _ _)
  rw [remaining_eq] at hsorted hx
  rcases List.mem_cons.mp hx with rfl | hx
  · exact le_refl _
  · exact (List.pairwise_cons.mp hsorted).1 x hx

end Cursor

/-- The entries that a heap of cursors has in front of it. -/
def pending (heap : List Cursor) : List (ListEntry ⊕ Str) := heap.flatMap Cursor.remaining

@[simp] theorem pending_nil : pending [] = [] := rfl

@[simp] theorem pending_append (xs ys : List Cursor) : pending (xs ++ ys) = pending xs ++ pending ys :=
  List.flatMap_append

/-- Only the empty heap has no least cursor. -/
theorem popMin_eq_none {heap : List Cursor} (h : popMin heap = none) : heap = [] := by
  cases heap with
  | nil => rfl
  | cons c heap =>
    rw [popMin] at h
    split at h
    · contradiction
    · split at h <;> contradiction

/-- A popped cursor is one of the heap, and no other has a smaller front. -/
theorem popMin_eq_some {heap rest : List Cursor} {least : Cursor}
    (h : popMin heap = some (least, rest)) :
    heap.Perm (least :: rest) ∧ ∀ c ∈ rest, outputKey least.entry ≤ outputKey c.entry := by
  induction heap generalizing least rest with
  | nil => contradiction
  | cons c heap ih =>
    rw [popMin] at h
    split at h
    · rename_i hnone
      obtain ⟨rfl, rfl⟩ := Prod.mk.inj (Option.some.inj h)
      rw [popMin_eq_none hnone]
      exact ⟨List.Perm.refl _, by simp⟩
    · rename_i other others hsome
      obtain ⟨hperm, hmin⟩ := ih hsome
      split at h <;> rename_i hcmp <;> rw [Cursor.cmp_eq, cmpList_eq_lt_iff] at hcmp <;>
        obtain ⟨rfl, rfl⟩ := Prod.mk.inj (Option.some.inj h)
      · -- the least cursor of the tail stays the least one
        refine ⟨(hperm.cons c).trans (List.Perm.swap _ _ _), fun d hd => ?_⟩
        rcases List.mem_cons.mp hd with rfl | hd
        · exact le_of_lt hcmp
        · exact hmin d hd
      · refine ⟨hperm.cons c, fun d hd => ?_⟩
        rcases List.mem_cons.mp hd with rfl | hd
        · exact not_lt.mp hcmp
        · exact le_trans (not_lt.mp hcmp) (hmin d hd)

/-- Popping a cursor and advancing it takes a least entry out of the frontier. -/
theorem pending_popMin {heap rest : List Cursor} {least : Cursor}
    (h : popMin heap = some (least, rest)) :
    (pending heap).Perm (least.entry :: pending (least.advance.toList ++ rest)) ∧
      ∀ x ∈ pending (least.advance.toList ++ rest), outputKey least.entry ≤ outputKey x := by
  obtain ⟨hperm, hmin⟩ := popMin_eq_some h
  have hcons : pending (least :: rest) =
      least.entry :: pending (least.advance.toList ++ rest) := by
    rw [pending_append, pending, pending, List.flatMap_cons, Cursor.remaining_eq, List.cons_append]
    rfl
  refine ⟨hcons ▸ hperm.flatMap_right Cursor.remaining, fun x hx => ?_⟩
  obtain ⟨c, hc, hxc⟩ := List.mem_flatMap.mp (hcons ▸ List.mem_cons_of_mem _ hx)
  rcases List.mem_cons.mp hc with rfl | hc
  · exact c.entry_le hxc
  · exact le_trans (hmin c hc) (c.entry_le hxc)

/-! ## The marker -/

theorem dirChildrenAllBefore_cons_cons (x y : UInt8) (d m : Str) :
    dirChildrenAllBefore (x :: d) (y :: m) =
      match cmpEntry x y with
      | .lt => true
      | .gt => false
      | .eq => dirChildrenAllBefore d m := by
  unfold dirChildrenAllBefore
  simp only [List.length_cons, Nat.succ_min_succ, List.take_succ_cons, cmpList, List.get_cons_succ,
    Nat.add_lt_add_iff_right]
  cases cmpEntry x y <;> rfl

/-- The children of a directory all come before the marker exactly when its output does and the
marker is not among them. -/
theorem dirChildrenAllBefore_iff (d m : Str) :
    dirChildrenAllBefore d m = true ↔ dirOutput d < m ∧ ¬ dirOutput d <+: m := by
  induction d generalizing m with
  | nil =>
    cases m with
    | nil => simp [dirChildrenAllBefore, cmpList, dirOutput]
    | cons y m =>
      have hbefore : dirChildrenAllBefore [] (y :: m) = decide (slash < y) := by
        simp [dirChildrenAllBefore, cmpList]
      rw [hbefore, decide_eq_true_iff, dirOutput, List.nil_append, List.cons_lt_cons_iff]
      constructor
      · exact fun h => ⟨Or.inl h, fun hp => ne_of_lt h (List.cons_prefix_cons.mp hp).1⟩
      · rintro ⟨h | ⟨rfl, -⟩, hp⟩
        · exact h
        · exact absurd (List.cons_prefix_cons.mpr ⟨rfl, List.nil_prefix⟩) hp
  | cons x d ih =>
    cases m with
    | nil => simp [dirChildrenAllBefore, cmpList, dirOutput]
    | cons y m =>
      have hout : dirOutput (x :: d) = x :: dirOutput d := rfl
      rw [dirChildrenAllBefore_cons_cons, hout, List.cons_lt_cons_iff, List.cons_prefix_cons]
      rcases lt_trichotomy x y with h | rfl | h
      · rw [cmpEntry, (cmp_eq_lt_iff x y).mpr h]
        simp [h, ne_of_lt h]
      · rw [cmpEntry, cmp_self_eq_eq]
        simp [ih]
      · rw [cmpEntry, (cmp_eq_gt_iff x y).mpr h]
        simp [not_lt_of_gt h, (ne_of_lt h).symm]

/-- The marker rules an entry out: a file at or before it, a directory with all its children before
it. -/
def Behind (marker : Str) : ListEntry ⊕ Str → Prop
  | .inl e => e.key ≤ marker
  | .inr d => dirChildrenAllBefore d marker = true

/-- Directories of which no output extends another one, as the children of one directory are. -/
def Siblings (dirs : List Str) : Prop := dirs.Pairwise fun a b => ¬ dirOutput a <+: dirOutput b

/-- The search never passes a directory whose output is above the marker. -/
theorem dirsStartAfter_le (dirs : List Str) (marker : Str) :
    dirsStartAfter dirs marker ≤ partitionPoint (fun d => cmpDirOutput d marker != .gt) dirs := by
  unfold dirsStartAfter
  simp only []
  split <;> [split <;> [split; skip]; skip] <;> omega

/-- What the search passes over is at or before the marker. -/
theorem output_le_of_mem_take {dirs : List Str} {marker d : Str}
    (hsorted : dirs.Pairwise fun a b => dirOutput a ≤ dirOutput b)
    (hd : d ∈ dirs.take (dirsStartAfter dirs marker)) :
    d ∈ dirs.filter (fun d => cmpDirOutput d marker != .gt) ∧ dirOutput d ≤ marker := by
  have hmem := List.take_subset_take_left dirs (dirsStartAfter_le dirs marker) hd
  rw [take_partitionPoint (partitioned_dirs hsorted marker).2] at hmem
  exact ⟨hmem, cmpDirOutput_ne_gt_iff.mp (List.mem_filter.mp hmem).2⟩

/-- When the marker is below the last directory that is not above it, the search stops before that
directory. -/
theorem take_dirsStartAfter_of_isPrefix {dirs init : List Str} {marker last : Str}
    (hsorted : dirs.Pairwise fun a b => dirOutput a ≤ dirOutput b)
    (hinit : dirs.filter (fun d => cmpDirOutput d marker != .gt) = init ++ [last])
    (hlast : dirOutput last <+: marker) : dirs.take (dirsStartAfter dirs marker) = init := by
  have hpart := (partitioned_dirs hsorted marker).2
  have hcount := partitionPoint_eq_length_filter hpart
  rw [hinit, List.length_append, List.length_singleton] at hcount
  have htake := take_partitionPoint hpart
  rw [hinit] at htake
  have hback : dirsStartAfter dirs marker = init.length := by
    have hcandidate : (dirs.take (partitionPoint (fun d => cmpDirOutput d marker != .gt) dirs)).getLast? =
        some last := by rw [htake, List.getLast?_concat]
    unfold dirsStartAfter
    simp only [hcandidate]
    rw [hcount]
    obtain ⟨t, rfl⟩ := hlast
    simp [dirOutput]
  have hprefix := congrArg (List.take init.length) htake
  rwa [List.take_take, List.take_left, hcount, Nat.min_eq_left (Nat.le_succ _), ← hback] at hprefix

/-- The search for the first directory that the marker does not rule out passes only over
directories that it does rule out. -/
theorem behind_of_mem_take {dirs : List Str} {marker d : Str}
    (hsorted : dirs.Pairwise fun a b => dirOutput a ≤ dirOutput b) (hsib : Siblings dirs)
    (hd : d ∈ dirs.take (dirsStartAfter dirs marker)) : dirChildrenAllBefore d marker = true := by
  obtain ⟨hmem, hle⟩ := output_le_of_mem_take hsorted hd
  rw [dirChildrenAllBefore_iff]
  suffices hnot : ¬ dirOutput d <+: marker from
    ⟨lt_of_le_of_ne hle fun h => hnot (h ▸ List.prefix_rfl), hnot⟩
  intro hp
  obtain ⟨init, last, hinit⟩ : ∃ init last,
      dirs.filter (fun d => cmpDirOutput d marker != .gt) = init ++ [last] :=
    ⟨_, _, (List.dropLast_append_getLast (List.ne_nil_of_mem hmem)).symm⟩
  have hsub : (init ++ [last]).Sublist dirs := hinit ▸ List.filter_sublist
  have hlast : dirOutput last ≤ marker := by
    have hkept : last ∈ dirs.filter (fun d => cmpDirOutput d marker != .gt) := by simp [hinit]
    exact cmpDirOutput_ne_gt_iff.mp (List.mem_filter.mp hkept).2
  -- between `d` and the marker there is only `d` itself, so the search stops before it
  have hout : d ∉ init := by
    intro hdi
    have hbetween := (List.pairwise_append.mp (hsorted.sublist hsub)).2.2 d hdi last (by simp)
    have hapart := (List.pairwise_append.mp (hsib.sublist hsub)).2.2 d hdi last (by simp)
    exact hapart (prefix_of_between hp hbetween hlast)
  obtain rfl : d = last := by
    rw [hinit] at hmem
    simpa [hout] using hmem
  exact hout (take_dirsStartAfter_of_isPrefix hsorted hinit hp ▸ hd)

namespace SortedListing

/-! ## Pushing a listing -/

/-- A cursor placed in a listing has the rest of the array in front of it. -/
theorem pending_cursorAt (listing : DirListing) (files : Bool) (idx : ℕ) :
    pending (cursorAt listing files idx).toList = (listing.side files).drop idx := by
  have hlen : (listing.side files).length =
      if files then listing.files.length else listing.dirs.length := by
    cases files <;> simp [DirListing.side]
  by_cases h : idx < if files then listing.files.length else listing.dirs.length
  · rw [cursorAt, dif_pos h]
    exact List.append_nil _
  · rw [cursorAt, dif_neg h]
    exact (List.drop_eq_nil_of_le (hlen.trans_le (Nat.le_of_not_lt h))).symm

/-- Two positions split the entries of a listing. -/
theorem entries_perm (listing : DirListing) (fs ds : ℕ) : listing.entries.Perm
    (((listing.side true).take fs ++ (listing.side false).take ds) ++
      ((listing.side true).drop fs ++ (listing.side false).drop ds)) := by
  have hswap := List.perm_append_comm_assoc ((listing.side true).drop fs)
    ((listing.side false).take ds) ((listing.side false).drop ds)
  have hperm := hswap.append_left ((listing.side true).take fs)
  rwa [List.take_append_drop, ← List.append_assoc, ← List.append_assoc,
    List.take_append_drop] at hperm

/-- Two cursors in front of a heap add what follows their positions. -/
theorem pending_cursors (listing : DirListing) (fs ds : ℕ) (heap : List Cursor) :
    pending ((cursorAt listing true fs).toList ++ ((cursorAt listing false ds).toList ++ heap)) =
      ((listing.side true).drop fs ++ (listing.side false).drop ds) ++ pending heap := by
  rw [pending_append, pending_append, pending_cursorAt, pending_cursorAt, List.append_assoc]

/-- The marker rules out everything that the two searches pass over. -/
theorem behind_of_mem_passed {listing : DirListing} (hsib : Siblings listing.dirs) {marker : Str}
    {x : ListEntry ⊕ Str}
    (hx : x ∈ (listing.side true).take
        (partitionPoint (fun f : ListEntry => decide (f.key ≤ marker)) listing.files) ++
      (listing.side false).take (dirsStartAfter listing.dirs marker)) : Behind marker x := by
  rcases List.mem_append.mp hx with hx | hx
  · have hpart := (partitioned_files listing.files_sorted marker).2
    rw [DirListing.side, if_pos rfl, ← List.map_take, take_partitionPoint hpart] at hx
    obtain ⟨e, he, rfl⟩ := List.mem_map.mp hx
    have hle : e.key ≤ marker := of_decide_eq_true (List.mem_filter.mp he).2
    exact hle
  · rw [DirListing.side, if_neg Bool.false_ne_true, ← List.map_take] at hx
    obtain ⟨d, hd, rfl⟩ := List.mem_map.mp hx
    exact behind_of_mem_take listing.dirs_sorted hsib hd

/-- A pushed listing adds its entries to the frontier, except for some that the marker rules out. -/
theorem pending_pushListing (s : SortedListing) {listing : DirListing}
    (hsib : Siblings listing.dirs) :
    ∃ dropped kept, listing.entries.Perm (dropped ++ kept) ∧
      (∀ x ∈ dropped, ∃ marker, s.after = some marker ∧ Behind marker x) ∧
      pending (s.pushListing listing).heap = kept ++ pending s.heap := by
  cases hafter : s.after with
  | none =>
    have hpush : (s.pushListing listing).heap = (cursorAt listing true 0).toList ++
        ((cursorAt listing false 0).toList ++ s.heap) := by simp only [pushListing, hafter]
    exact ⟨_, _, entries_perm listing 0 0, by simp, hpush ▸ pending_cursors listing 0 0 s.heap⟩
  | some marker =>
    have hpush : (s.pushListing listing).heap =
        (cursorAt listing true
          (partitionPoint (fun f => decide (f.key ≤ marker)) listing.files)).toList ++
        ((cursorAt listing false (dirsStartAfter listing.dirs marker)).toList ++ s.heap) := by
      simp only [pushListing, hafter]
    exact ⟨_, _, entries_perm listing _ _,
      fun x hx => ⟨marker, rfl, behind_of_mem_passed hsib hx⟩,
      hpush ▸ pending_cursors listing _ _ s.heap⟩

/-! ## One turn -/

/-- The errors that make the walk skip a directory: it vanished or is unreadable. -/
def skippable (err : HdfsError) : Bool :=
  isDirDenied err || match err with
    | .fileNotFound _ => true
    | _ => false

/-- The prefix and the marker let an entry through. -/
def Passes (s : SortedListing) (x : ListEntry ⊕ Str) : Prop :=
  s.pre <+: entryKey x ∧ ∀ marker, s.after = some marker → ¬ Behind marker x

/-- A least entry `x` is taken out of the frontier. -/
structure Popped (heap : List Cursor) (x : ListEntry ⊕ Str) (heap' : List Cursor) : Prop where
  perm : (pending heap).Perm (x :: pending heap')
  least : ∀ y ∈ pending heap', outputKey x ≤ outputKey y

/-- Everything one turn can do, against a lister, with the directories it lists. -/
inductive Turned (lister : Str → Except HdfsError DirListing) (s : SortedListing) :
    Turn → SortedListing → List Str → Prop
  | stop (hnone : pending s.heap = []) : Turned lister s .stop { s with exhausted := true } []
  | skip {x : ListEntry ⊕ Str} {heap : List Cursor} (hpop : Popped s.heap x heap)
      (hskip : ¬ s.Passes x ∨ ∃ d, x = .inr d ∧ s.mapper.keyToHdfsPath d = none) :
      Turned lister s .again { s with heap } []
  | emit {e : ListEntry} {heap : List Cursor} (hpop : Popped s.heap (.inl e) heap)
      (hpass : s.Passes (.inl e)) : Turned lister s (.emit e) { s with heap } []
  | opened {d path : Str} {listing : DirListing} {heap : List Cursor}
      (hpop : Popped s.heap (.inr d) heap) (hpass : s.Passes (.inr d))
      (hpath : s.mapper.keyToHdfsPath d = some path) (hlist : lister path = .ok listing) :
      Turned lister s .again ({ s with heap }.pushListing listing) [path]
  | passed {d path : Str} {err : HdfsError} {heap : List Cursor}
      (hpop : Popped s.heap (.inr d) heap) (hpass : s.Passes (.inr d))
      (hpath : s.mapper.keyToHdfsPath d = some path) (hlist : lister path = .error err)
      (hskip : skippable err = true) : Turned lister s .again { s with heap } [path]
  | failed {d path : Str} {err : HdfsError} {heap : List Cursor}
      (hpop : Popped s.heap (.inr d) heap) (hpass : s.Passes (.inr d))
      (hpath : s.mapper.keyToHdfsPath d = some path) (hlist : lister path = .error err)
      (hfail : skippable err = false) : Turned lister s (.fail err) { s with heap } [path]

/-- Opening a directory that may hold a later key is one of the last three things. -/
theorem openDir_turned (lister : Str → Except HdfsError DirListing) {s : SortedListing} {d path : Str}
    {heap : List Cursor} (hpop : Popped s.heap (.inr d) heap) (hpass : s.Passes (.inr d))
    (hpath : s.mapper.keyToHdfsPath d = some path) :
    let open' := openDir { s with heap } path
    Turned lister s (open'.eval lister).1 (open'.eval lister).2 (open'.trace lister) := by
  unfold openDir
  simp only [Prog.perform_bind, Prog.eval_call, Prog.trace]
  cases hlist : lister path with
  | ok listing => exact .opened hpop hpass hpath hlist
  | error err =>
    simp only []
    split
    · rename_i hdenied
      exact .passed hpop hpass hpath hlist (by simp [skippable, hdenied])
    · rename_i hdenied
      split
      · exact .passed hpop hpass hpath hlist (by simp [skippable])
      · rename_i hother
        have hfail : skippable err = false := by
          cases err <;> simp_all [skippable]
        exact .failed hpop hpass hpath hlist hfail

/-- A popped entry that the prefix or the marker keeps out ends the turn. -/
theorem turn_of_not_passes {s : SortedListing} {cursor : Cursor} {heap : List Cursor}
    (hpopped : popMin s.heap = some (cursor, heap)) (hpass : ¬ s.Passes cursor.entry) :
    s.turn = pure (.again, { s with heap := cursor.advance.toList ++ heap }) := by
  rw [turn, hpopped]
  simp only []
  cases hx : cursor.entry with
  | inl e =>
    rw [hx, Passes, entryKey_inl] at hpass
    by_cases hpre : startsWith e.key s.pre = true
    · obtain ⟨marker, hafter, hle⟩ : ∃ marker, s.after = some marker ∧ e.key ≤ marker := by
        simpa [(startsWith_iff _ _).mp hpre, Behind] using hpass
      simp [hpre, hafter, hle]
    · simp [hpre]
  | inr d =>
    rw [hx, Passes, entryKey_inr] at hpass
    by_cases hpre : startsWith d s.pre = true
    · obtain ⟨marker, hafter, hall⟩ : ∃ marker, s.after = some marker ∧
          dirChildrenAllBefore d marker = true := by
        simpa [(startsWith_iff _ _).mp hpre, Behind] using hpass
      simp [hpre, hafter, hall]
    · simp [hpre]

/-- A popped file that passes is emitted. -/
theorem turn_of_file {s : SortedListing} {cursor : Cursor} {heap : List Cursor} {e : ListEntry}
    (hpopped : popMin s.heap = some (cursor, heap)) (hx : cursor.entry = .inl e)
    (hpass : s.Passes (.inl e)) :
    s.turn = pure (.emit e, { s with heap := cursor.advance.toList ++ heap }) := by
  have hpre : startsWith e.key s.pre = true := (startsWith_iff _ _).mpr hpass.1
  rw [turn, hpopped]
  simp only [hx, hpre, Bool.not_true, Bool.false_eq_true, if_false]
  split
  · rename_i marker hafter
    exact if_neg (hpass.2 marker hafter)
  · rfl

/-- A popped directory that passes is opened, when its key names a path. -/
theorem turn_of_dir {s : SortedListing} {cursor : Cursor} {heap : List Cursor} {d : Str}
    (hpopped : popMin s.heap = some (cursor, heap)) (hx : cursor.entry = .inr d)
    (hpass : s.Passes (.inr d)) :
    s.turn = match s.mapper.keyToHdfsPath d with
      | none => pure (.again, { s with heap := cursor.advance.toList ++ heap })
      | some path => openDir { s with heap := cursor.advance.toList ++ heap } path := by
  have hpre : startsWith d s.pre = true := (startsWith_iff _ _).mpr hpass.1
  have hbefore : (s.after.map (dirChildrenAllBefore d)).getD false = false := by
    cases hafter : s.after with
    | none => rfl
    | some marker => exact Bool.eq_false_iff.mpr (hpass.2 marker hafter)
  rw [turn, hpopped]
  cases hpath : s.mapper.keyToHdfsPath d <;>
    simp only [hx, hpre, hbefore, hpath, Bool.not_true, Bool.false_eq_true, if_false]

/-- A turn does one of these things. -/
theorem turn_turned (lister : Str → Except HdfsError DirListing) (s : SortedListing) :
    Turned lister s (s.turn.eval lister).1 (s.turn.eval lister).2 (s.turn.trace lister) := by
  cases hpopped : popMin s.heap with
  | none =>
    rw [turn, hpopped]
    exact .stop (by rw [popMin_eq_none hpopped, pending_nil])
  | some popped =>
    obtain ⟨cursor, heap⟩ := popped
    have hpop : Popped s.heap cursor.entry (cursor.advance.toList ++ heap) :=
      ⟨(pending_popMin hpopped).1, (pending_popMin hpopped).2⟩
    by_cases hpass : s.Passes cursor.entry
    · cases hx : cursor.entry with
      | inl e =>
        rw [hx] at hpop hpass
        rw [turn_of_file hpopped hx hpass]
        exact .emit hpop hpass
      | inr d =>
        rw [hx] at hpop hpass
        rw [turn_of_dir hpopped hx hpass]
        cases hpath : s.mapper.keyToHdfsPath d with
        | none => exact .skip hpop (.inr ⟨d, rfl, hpath⟩)
        | some path => exact openDir_turned lister hpop hpass hpath
    · rw [turn_of_not_passes hpopped hpass]
      exact .skip hpop (.inl hpass)

end SortedListing

end HdfsS3Gateway
