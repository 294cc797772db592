import HdfsS3Gateway.S3.WalkPages

/-!
# What a flat page contains and what it costs

A page of `n` keys deals with the events before the file number `n + 1`: it returns the files among
them and opens the directories among them. A file of the tree that is no event although it is
selected lies below a directory whose listing fails; the page either stops there with an error, or
ends before it.
-/

namespace HdfsS3Gateway

open Interaction Lexicographic

namespace FlatListing

variable {w : FlatListing} {x : Inode} {events : List Inode}

/-! ## The events of a page -/

/-- The files among events. -/
def files (events : List Inode) : List Inode := events.filter fun x => !x.isdir

/-- The events before the file number `n + 1`. -/
def upto : List Inode → ℕ → List Inode
  | [], _ => []
  | x :: rest, 0 => if x.isdir then x :: upto rest 0 else []
  | x :: rest, n + 1 => if x.isdir then x :: upto rest (n + 1) else x :: upto rest n

theorem upto_cons_dir {rest : List Inode} (h : x.isdir = true) (n : ℕ) :
    upto (x :: rest) n = x :: upto rest n := by
  cases n <;> rw [upto, if_pos h]

theorem upto_cons_file {rest : List Inode} (h : x.isdir = false) :
    upto (x :: rest) 0 = [] ∧ ∀ n, upto (x :: rest) (n + 1) = x :: upto rest n := by
  refine ⟨by simp [upto, h], fun n => by simp [upto, h]⟩

theorem files_cons_dir {rest : List Inode} (h : x.isdir = true) : files (x :: rest) = files rest := by
  simp [files, h]

theorem files_cons_file {rest : List Inode} (h : x.isdir = false) :
    files (x :: rest) = x :: files rest := by
  simp [files, h]

theorem mem_files : x ∈ files events ↔ x ∈ events ∧ x.isdir = false := by
  simp [files]

/-- The events of a page are a part of the events. -/
theorem upto_sublist (events : List Inode) (n : ℕ) : (upto events n).Sublist events := by
  induction events generalizing n with
  | nil => exact List.Sublist.refl _
  | cons x rest ih =>
    cases hdir : x.isdir with
    | true =>
      rw [upto_cons_dir hdir]
      exact (ih n).cons_cons x
    | false =>
      cases n with
      | zero =>
        rw [(upto_cons_file hdir).1]
        exact List.nil_sublist _
      | succ n =>
        rw [(upto_cons_file hdir).2]
        exact (ih n).cons_cons x

/-- In the order of keys, the events of a page are those before the next file. -/
theorem mem_upto {key : Inode → Str} (hsorted : events.Pairwise fun x y => key x < key y) (n : ℕ) :
    x ∈ upto events n ↔ x ∈ events ∧ ∀ f, (files events)[n]? = some f → key x < key f := by
  induction events generalizing n with
  | nil => simp [upto]
  | cons y rest ih =>
    obtain ⟨hlt, htail⟩ := List.pairwise_cons.mp hsorted
    have hhead : ∀ (k : ℕ) f, (files rest)[k]? = some f → key y < key f := fun k f h =>
      hlt f (mem_files.mp (List.mem_of_getElem? h)).1
    -- keeping `y` in front of what the tail keeps
    have hcons : ∀ k : ℕ, (x = y ∨ x ∈ rest ∧ ∀ f, (files rest)[k]? = some f → key x < key f) ↔
        (x = y ∨ x ∈ rest) ∧ ∀ f, (files rest)[k]? = some f → key x < key f := by
      intro k
      constructor
      · rintro (rfl | ⟨hx, hbound⟩)
        · exact ⟨Or.inl rfl, hhead k⟩
        · exact ⟨Or.inr hx, hbound⟩
      · rintro ⟨rfl | hx, hbound⟩
        · exact Or.inl rfl
        · exact Or.inr ⟨hx, hbound⟩
    cases hdir : y.isdir with
    | true =>
      rw [upto_cons_dir hdir, files_cons_dir hdir, List.mem_cons, List.mem_cons, ih htail, hcons]
    | false =>
      rw [files_cons_file hdir]
      cases n with
      | zero =>
        rw [(upto_cons_file hdir).1]
        simp only [List.not_mem_nil, List.mem_cons, List.getElem?_cons_zero, Option.some.injEq,
          forall_eq', false_iff, not_and]
        rintro (rfl | hx) hcon
        · exact lt_irrefl _ hcon
        · exact lt_asymm hcon (hlt x hx)
      | succ n =>
        rw [(upto_cons_file hdir).2, List.mem_cons, List.mem_cons, List.getElem?_cons_succ, ih htail,
          hcons]

/-- The error of the first directory that fails. -/
def firstFailure (w : FlatListing) (xs : List Inode) : Option HdfsError :=
  xs.findSome? fun d => if d.isdir then w.fails d else none

/-- A page over events: the error of the first directory that fails, or the first files, and whether
there are more. -/
theorem collect_eq (w : FlatListing) (events : List Inode) (n : ℕ) (page : List ListEntry) :
    (w.collect (some (page.length + n)) events page).1 =
        (match w.firstFailure (upto events n) with
          | some err => .error err
          | none => .ok (page ++ ((files events).take n).map (Inode.object w.mapper),
              decide (n < (files events).length))) ∧
      (w.firstFailure (upto events n) = none →
        (w.collect (some (page.length + n)) events page).2 =
          ((upto events n).filter fun x => x.isdir).map Inode.segs) := by
  induction events generalizing n page with
  | nil => simp [collect, files, upto, firstFailure]
  | cons x rest ih =>
    cases hdir : x.isdir with
    | true =>
      have hfirst : w.firstFailure (upto (x :: rest) n) =
          (w.fails x).or (w.firstFailure (upto rest n)) := by
        rw [upto_cons_dir hdir, firstFailure, List.findSome?_cons, if_pos hdir]
        cases w.fails x <;> rfl
      rw [hfirst, collect, if_pos hdir, files_cons_dir hdir, upto_cons_dir hdir]
      cases hfails : w.fails x with
      | some err => simp
      | none =>
        obtain ⟨h1, h2⟩ := ih n page
        exact ⟨h1, fun hnone => by simp [h2 hnone, hdir]⟩
    | false =>
      rw [collect, hdir, files_cons_file hdir]
      simp only [Bool.false_eq_true, if_false]
      cases n with
      | zero => simp [(upto_cons_file hdir).1, firstFailure]
      | succ n =>
        have hne : ¬ some page.length = some (page.length + (n + 1)) := by simp
        have hlen : page.length + (n + 1) = (page ++ [x.object w.mapper]).length + n := by
          rw [List.length_append, List.length_singleton]
          omega
        have hfirst : w.firstFailure (upto (x :: rest) (n + 1)) =
            w.firstFailure (upto rest n) := by
          simp [(upto_cons_file hdir).2, firstFailure, hdir]
        obtain ⟨h1, h2⟩ := ih n (page ++ [x.object w.mapper])
        rw [if_neg hne, hlen, hfirst, h1]
        refine ⟨?_, fun hnone => ?_⟩
        · simp
        · rw [h2 hnone, (upto_cons_file hdir).2]
          simp [hdir]

/-- Without a limit the page has every file, unless a directory fails. -/
theorem collect_unlimited (hok : ∀ d ∈ events, d.isdir = true → w.fails d = none)
    (page : List ListEntry) :
    (w.collect none events page).1 =
      .ok (page ++ (files events).map (Inode.object w.mapper), false) := by
  induction events generalizing page with
  | nil => simp [collect, files]
  | cons x rest ih =>
    have hrest := ih fun d hd => hok d (List.mem_cons_of_mem _ hd)
    cases hdir : x.isdir with
    | true =>
      rw [collect, if_pos hdir, hok x List.mem_cons_self hdir, files_cons_dir hdir]
      exact hrest page
    | false =>
      rw [collect, hdir, files_cons_file hdir]
      simp [hrest]

/-! ## The selected files -/

/-- A file that a complete listing has: its key starts with the prefix and lies above the marker,
and no directory between the start and the file is missing or unreadable. -/
structure Selected (w : FlatListing) (x : Inode) : Prop extends w.Below x where
  file : x.isdir = false
  starts_with : w.pre <+: w.mapper.keyOf x.segs
  above_marker : ∀ marker, w.after = some marker → marker < w.mapper.keyOf x.segs
  visible : ∀ p, w.start <+: p → w.start ≠ p → p <+: x.segs → p ≠ x.segs →
    ∀ err, w.outcome p = some err → SortedListing.skippable err = false

/-- A file is let through if its key starts with the prefix and lies above the marker. -/
theorem passes_file (hfile : x.isdir = false) : w.Passes x ↔
    w.pre <+: w.mapper.keyOf x.segs ∧
      ∀ marker, w.after = some marker → marker < w.mapper.keyOf x.segs := by
  simp only [Passes, Inode.entry, hfile, Bool.false_eq_true, if_false, Behind, Inode.object, not_le]

/-- The files among the events are selected. -/
theorem IsEvent.selected (h : w.IsEvent x) (hfile : x.isdir = false) : w.Selected x := by
  obtain ⟨hpre, hmarker⟩ := (passes_file hfile).mp h.passes
  refine ⟨h.toBelow, hfile, hpre, hmarker, fun p habove hne hp hpx err herr => ?_⟩
  rw [h.reached p habove hne hp hpx] at herr
  contradiction

/-- A selected file is an event, or lies below a directory that fails. -/
theorem Selected.event_or_failure (h : w.Selected x) :
    w.IsEvent x ∨ ∃ d, w.IsEvent d ∧ d.isdir = true ∧ w.fails d ≠ none ∧
      d.segs <+: x.segs ∧ d.segs ≠ x.segs := by
  have hpass : w.Passes x := (passes_file h.file).mpr ⟨h.starts_with, h.above_marker⟩
  by_cases hreached : ∀ p, w.start <+: p → w.start ≠ p → p <+: x.segs → p ≠ x.segs →
      w.outcome p = none
  · exact Or.inl ⟨h.toBelow, hpass, hreached⟩
  · -- the first directory on the way that cannot be listed
    have hexists : ∃ n p, p.length = n ∧ w.start <+: p ∧ w.start ≠ p ∧ p <+: x.segs ∧
        p ≠ x.segs ∧ w.outcome p ≠ none := by
      by_contra hnone
      apply hreached
      intro p habove hne hp hpx
      by_contra hout
      exact hnone ⟨p.length, p, rfl, habove, hne, hp, hpx, hout⟩
    classical
    obtain ⟨p, hlen, habove, hne, hp, hpx, hout⟩ := Nat.find_spec hexists
    have hfirst : ∀ q, w.start <+: q → w.start ≠ q → q <+: p → q ≠ p → w.outcome q = none := by
      intro q hqa hqn hqp hqne
      by_contra hqout
      have hshort : q.length < p.length :=
        lt_of_le_of_ne hqp.length_le fun heq => hqne (hqp.eq_of_length heq)
      apply Nat.find_min hexists (hlen ▸ hshort)
      refine ⟨q, rfl, hqa, hqn, hqp.trans hp, ?_, hqout⟩
      rintro rfl
      exact hqne (hqp.eq_of_length_le hp.length_le)
    have htop : p ≠ [] := by
      rintro rfl
      exact hne (List.prefix_nil.mp habove)
    obtain ⟨d, hd, rfl, hdir⟩ := w.tree.above x h.mem p htop hp hpx
    have hbelow : w.Below d := ⟨hd, habove, hne⟩
    obtain ⟨err, herr⟩ := Option.ne_none_iff_exists'.mp hout
    refine Or.inr ⟨d, ⟨hbelow, passes_of_covers hbelow hdir h.mem hp hpass, hfirst⟩, hdir, ?_, hp, hpx⟩
    simp [fails, herr, Option.filter, h.visible _ habove hne hp hpx err herr]

/-- The selected files in the order of their keys. -/
structure Selection (w : FlatListing) (selected : List Inode) : Prop where
  sorted : selected.Pairwise fun x y => x.sortKey w.mapper < y.sortKey w.mapper
  mem_iff : ∀ x, x ∈ selected ↔ w.Selected x

theorem exists_selection (w : FlatListing) : ∃ selected, w.Selection selected := by
  obtain ⟨selected, hsorted, hmem⟩ := w.exists_sorted fun x (h : w.Selected x) => h.toBelow
  exact ⟨selected, hsorted, hmem⟩

variable {selected : List Inode}

/-- The files among the events, in order, are some of the selected ones. -/
theorem Events.files_sorted (he : w.Events events) :
    (files events).Pairwise fun x y => x.sortKey w.mapper < y.sortKey w.mapper :=
  he.sorted.sublist List.filter_sublist

theorem Selection.files_subset (hs : w.Selection selected) (he : w.Events events) :
    ∀ x ∈ files events, x ∈ selected := by
  intro x hx
  obtain ⟨hx, hfile⟩ := mem_files.mp hx
  exact (hs.mem_iff x).mpr (((he.mem_iff x).mp hx).selected hfile)

/-- A selected file that is no event comes after a directory that fails. -/
theorem Selection.after_failure (hs : w.Selection selected) (he : w.Events events)
    (hx : x ∈ selected) (hnew : x ∉ files events) :
    ∃ d ∈ events, d.isdir = true ∧ w.fails d ≠ none ∧
      d.sortKey w.mapper < x.sortKey w.mapper := by
  have hsel := (hs.mem_iff x).mp hx
  rcases hsel.event_or_failure with hevent | ⟨d, hd, hdir, hfails, hcov, hne⟩
  · exact absurd (mem_files.mpr ⟨(he.mem_iff x).mpr hevent, hsel.file⟩) hnew
  · refine ⟨d, (he.mem_iff d).mpr hd, hdir, hfails, ?_⟩
    have hpre := Inode.dirOutput_prefix_sortKey hd.toBelow.addressed hcov fun h => absurd h hne
    rw [Inode.sortKey_dir hdir]
    refine lt_of_le_of_ne (le_of_isPrefix hpre) fun heq => ?_
    rw [Inode.sortKey_file hsel.file] at heq
    exact hsel.toBelow.addressed.keyOf_ne_dirOutput _ heq.symm

/-- If no directory fails, every selected file is an event. -/
theorem Selection.eq_files (hs : w.Selection selected) (he : w.Events events)
    (hok : ∀ d ∈ events, d.isdir = true → w.fails d = none) : files events = selected := by
  have : Std.Irrefl fun x y : Inode => x.sortKey w.mapper < y.sortKey w.mapper :=
    ⟨fun _ => lt_irrefl _⟩
  have : Std.Antisymm fun x y : Inode => x.sortKey w.mapper < y.sortKey w.mapper :=
    ⟨fun _ _ hxy hyx => absurd hyx (lt_asymm hxy)⟩
  apply List.Pairwise.eq_of_mem_iff he.files_sorted hs.sorted
  intro x
  refine ⟨hs.files_subset he x, fun hx => ?_⟩
  by_contra hnew
  obtain ⟨d, hd, hdir, hfails, -⟩ := hs.after_failure he hx hnew
  exact hfails (hok d hd hdir)

/-- If no directory fails before the next file, the page is that of the selected files. -/
theorem Selection.take_eq (hs : w.Selection selected) (he : w.Events events) {n : ℕ}
    (hok : w.firstFailure (upto events n) = none) :
    (files events).take n = selected.take n ∧ (n < (files events).length ↔ n < selected.length) := by
  have hnofail : ∀ d ∈ events, d.isdir = true → w.fails d ≠ none →
      ∃ last, (files events)[n]? = some last ∧ last.sortKey w.mapper ≤ d.sortKey w.mapper := by
    intro d hd hdir hfails
    have hout : d ∉ upto events n := by
      intro hmem
      have hnone := List.findSome?_eq_none_iff.mp hok d hmem
      rw [if_pos hdir] at hnone
      exact hfails hnone
    rw [mem_upto he.sorted] at hout
    by_contra hcon
    exact hout ⟨hd, fun f hf => lt_of_not_ge fun hle => hcon ⟨f, hf, hle⟩⟩
  cases hlast : (files events)[n]? with
  | none =>
    -- no directory fails at all, so every selected file is an event
    have hsame : files events = selected := by
      apply hs.eq_files he
      intro d hd hdir
      by_contra hfails
      obtain ⟨last, hsome, -⟩ := hnofail d hd hdir hfails
      rw [hlast] at hsome
      contradiction
    rw [hsame]
    exact ⟨rfl, Iff.rfl⟩
  | some last =>
    have htake : selected.take (n + 1) = (files events).take (n + 1) := by
      apply SortedSearch.take_eq_take he.files_sorted hs.sorted (hs.files_subset he) hlast
      intro x hx hnew
      obtain ⟨d, hd, hdir, hfails, hlt⟩ := hs.after_failure he hx hnew
      obtain ⟨last', hsome, hle⟩ := hnofail d hd hdir hfails
      obtain rfl : last = last' := Option.some.inj (hlast.symm.trans hsome)
      exact lt_of_le_of_lt hle hlt
    have hlen := congrArg List.length htake
    have hmore : n < (files events).length := (List.getElem?_eq_some_iff.mp hlast).1
    rw [List.length_take, List.length_take] at hlen
    have hstarts := congrArg (List.take n) htake
    rw [List.take_take, List.take_take, Nat.min_eq_left (Nat.le_succ n)] at hstarts
    exact ⟨hstarts.symm, ⟨fun _ => by omega, fun _ => hmore⟩⟩

/-- Every selected file before the first failing directory is an event. -/
theorem Selection.mem_files_of_le (hs : w.Selection selected) (he : w.Events events)
    {before later : List Inode} {d x : Inode} {n : ℕ} (hsplit : upto events n = before ++ d :: later)
    (hbefore : ∀ y ∈ before, y.isdir = true → w.fails y = none) (hx : x ∈ selected)
    (hle : x.sortKey w.mapper ≤ d.sortKey w.mapper) : x ∈ files events := by
  have hdbound := ((mem_upto he.sorted n).mp (by simp [hsplit] : d ∈ upto events n)).2
  by_contra hnew
  obtain ⟨d', hd', hdir', hfails', hlt'⟩ := hs.after_failure he hx hnew
  have hlt := lt_of_lt_of_le hlt' hle
  have hupto' : d' ∈ upto events n :=
    (mem_upto he.sorted n).mpr ⟨hd', fun g hg => lt_trans hlt (hdbound g hg)⟩
  have hsortedUpto : (upto events n).Pairwise fun x y => x.sortKey w.mapper < y.sortKey w.mapper :=
    he.sorted.sublist (upto_sublist events n)
  rw [hsplit] at hupto' hsortedUpto
  rcases List.mem_append.mp hupto' with hmem | hmem
  · exact hfails' (hbefore d' hmem hdir')
  · rcases List.mem_cons.mp hmem with rfl | hmem
    · exact lt_irrefl _ hlt
    · have hpairs := (List.pairwise_append.mp hsortedUpto).2.1
      exact lt_asymm hlt ((List.pairwise_cons.mp hpairs).1 d' hmem)

/-- The first directory that fails comes before the selected file number `n + 1`. -/
theorem Selection.failure_before (hs : w.Selection selected) (he : w.Events events) {n : ℕ}
    {err : HdfsError} (hfail : w.firstFailure (upto events n) = some err) :
    ∃ d, w.IsEvent d ∧ d.isdir = true ∧ w.fails d = some err ∧
      ∀ f, selected[n]? = some f → d.sortKey w.mapper < f.sortKey w.mapper := by
  obtain ⟨before, d, later, hsplit, hd, hbefore⟩ := List.findSome?_eq_some_iff.mp hfail
  have hdir : d.isdir = true := by
    by_contra hne
    rw [if_neg hne] at hd
    contradiction
  rw [if_pos hdir] at hd
  have hdupto : d ∈ upto events n := by simp [hsplit]
  obtain ⟨hdevents, hdbound⟩ := (mem_upto he.sorted n).mp hdupto
  refine ⟨d, (he.mem_iff d).mp hdevents, hdir, hd, fun f hf => ?_⟩
  have hnone : ∀ y ∈ before, y.isdir = true → w.fails y = none := by
    intro y hy hydir
    have hy := hbefore y hy
    rwa [if_pos hydir] at hy
  by_contra hcon
  have hfd : f.sortKey w.mapper ≤ d.sortKey w.mapper := not_lt.mp hcon
  obtain ⟨hfirst, hlater⟩ := SortedSearch.sorted_around hs.sorted hf
  -- otherwise the events have the same first `n + 1` files, so that file bounds `d`
  have htake : (files events).take (n + 1) = (selected.take (n + 1)).take (n + 1) := by
    have hlast : (selected.take (n + 1))[n]? = some f := by
      rw [List.getElem?_take_of_lt (Nat.lt_succ_self n), hf]
    apply SortedSearch.take_eq_take (hs.sorted.sublist (List.take_sublist _ _)) he.files_sorted _ hlast
    · intro y hy hnew
      have hmem := hs.files_subset he y hy
      rw [← List.take_append_drop (n + 1) selected, List.mem_append] at hmem
      exact hlater y (hmem.resolve_left hnew)
    · exact fun x hx => hs.mem_files_of_le he hsplit hnone (List.mem_of_mem_take hx)
        (le_trans (hfirst x hx) hfd)
  have hnext : (files events)[n]? = some f := by
    have hget := congrArg (fun l : List Inode => l[n]?) htake
    simp only [List.getElem?_take_of_lt (Nat.lt_succ_self n), hf] at hget
    exact hget
  exact hcon (hdbound f hnext)

end FlatListing

end HdfsS3Gateway
