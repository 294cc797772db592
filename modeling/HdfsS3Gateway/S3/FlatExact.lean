import HdfsS3Gateway.S3.FlatPages

/-!
# Flat listings are exact and cheap

Over any directory tree, any labelling of its directories with outcomes, any prefix, marker and page
size, a page has the first selected files and stops with an error only where a directory that fails
must be opened. Over a readable tree it opens the directories that can hold a key of the page or
the one after it, and no other.
-/

namespace HdfsS3Gateway

open Interaction Lexicographic

/-! ## A sample -/

/-- The directory `a` with the file `a/b`, and the file `a.txt` between them in key order. -/
def Namespace.sample : Namespace where
  nodes := [⟨[[0x61]], true, 0, 0⟩, ⟨[[0x61], [0x62]], false, 3, 5⟩,
    ⟨[[0x61, 0x2E, 0x74, 0x78, 0x74]], false, 4, 6⟩]
  plain := by decide
  ne_top := by decide
  nodup := by decide
  above := by
    have hinits : ∀ x ∈ ([⟨[[0x61]], true, 0, 0⟩, ⟨[[0x61], [0x62]], false, 3, 5⟩,
        ⟨[[0x61, 0x2E, 0x74, 0x78, 0x74]], false, 4, 6⟩] : List Inode), ∀ p ∈ x.segs.inits,
        p ≠ [] → p ≠ x.segs → ∃ d ∈ ([⟨[[0x61]], true, 0, 0⟩, ⟨[[0x61], [0x62]], false, 3, 5⟩,
          ⟨[[0x61, 0x2E, 0x74, 0x78, 0x74]], false, 4, 6⟩] : List Inode),
          d.segs = p ∧ d.isdir = true := by decide
    exact fun x hx p htop hp hne => hinits x hx p ((List.mem_inits p x.segs).mpr hp) htop hne

/-- The listing of the sample from its top, with these outcomes of its directories. -/
def FlatListing.sample (outcome : List Str → Option HdfsError) : FlatListing where
  tree := .sample
  outcome := outcome
  mapper := .new { hdfsRoot := [slash], bucketName := [] }
  pre := []
  after := none
  start := []
  plain := by decide
  starts := by decide

namespace FlatListing

variable {w : FlatListing} {list : Str → Except HdfsError (List FileStatus)}

/-! ## Pages -/

/-- The listing stops with this error at its start, or at a directory that can hold a selected key
of the page or the one after it. -/
def StopsAt (w : FlatListing) (selected : List Inode) (n : ℕ) (err : HdfsError) : Prop :=
  (w.tree.IsDir w.start ∧ w.outcome w.start = some err ∧ ∀ path, err ≠ .fileNotFound path) ∨
  ∃ d, w.IsEvent d ∧ d.isdir = true ∧ w.outcome d.segs = some err ∧
    SortedListing.skippable err = false ∧
    ∀ f, selected[n]? = some f → dirOutput (w.mapper.keyOf d.segs) < w.mapper.keyOf f.segs

/-- The files of a selection are ordered by their keys. -/
theorem Selection.keys_sorted {selected : List Inode} (hs : w.Selection selected) :
    selected.Pairwise fun x y => w.mapper.keyOf x.segs < w.mapper.keyOf y.segs := by
  apply hs.sorted.imp_of_mem
  intro x y hx hy h
  rwa [Inode.sortKey_file ((hs.mem_iff x).mp hx).file,
    Inode.sortKey_file ((hs.mem_iff y).mp hy).file] at h

/-- A page over a start that can be listed, or is no directory. -/
theorem page_of_startListed {selected events : List Inode} (hs : w.Selection selected)
    (he : w.Events events) (hl : w.tree.Lists w.outcome list) (hstart : w.StartListed) {fuel n : ℕ}
    (hfuel : w.tree.nodes.length < fuel) (hn : 1 ≤ n) :
    (w.fresh.collectPage fuel (some n)).eval (w.lister list) =
        .ok ((selected.take n).map (Inode.object w.mapper), decide (n < selected.length)) ∨
      ∃ err, (w.fresh.collectPage fuel (some n)).eval (w.lister list) = .error (.upstream err) ∧
        w.StopsAt selected n err := by
  have hlimit : some n ≠ some 0 := by
    rintro h
    have hzero := Option.some.inj h
    omega
  obtain ⟨heval, -⟩ := collectPage_refines he hl hstart hfuel hlimit
  have hcollect := (w.collect_eq events n []).1
  rw [List.length_nil, Nat.zero_add] at hcollect
  rw [heval, hcollect]
  cases hfail : w.firstFailure (upto events n) with
  | none =>
    obtain ⟨htake, hmore⟩ := hs.take_eq he hfail
    simp only [htake, hmore]
    exact Or.inl rfl
  | some err =>
    obtain ⟨d, hd, hdir, hfails, hbefore⟩ := hs.failure_before he hfail
    obtain ⟨houtcome, hskip⟩ := Option.filter_eq_some_iff.mp hfails
    refine Or.inr ⟨err, rfl, Or.inr ⟨d, hd, hdir, houtcome, by simpa using hskip, fun f hf => ?_⟩⟩
    have hfile := ((hs.mem_iff f).mp (List.mem_of_getElem? hf)).file
    have hlt := hbefore f hf
    rwa [Inode.sortKey_dir hdir, Inode.sortKey_file hfile] at hlt

/-- A page over a start that cannot be listed. -/
theorem page_of_startFails (hl : w.tree.Lists w.outcome list) {err : HdfsError}
    (hdir : w.tree.IsDir w.start) (herr : w.outcome w.start = some err) {fuel n : ℕ}
    (hfuel : w.tree.nodes.length < fuel) (hn : 1 ≤ n) :
    (w.fresh.collectPage fuel (some n)).eval (w.lister list) = startError err := by
  have hlist : w.lister list (absPath w.start) = .error err := by
    rw [lister, hl.failed w.start err hdir herr]
    rfl
  have hlimit : some n ≠ some 0 := by simpa using Nat.ne_of_gt hn
  exact (collectPage_unlisted hlist (Nat.zero_lt_of_lt hfuel) hlimit).1

/-- A flat listing is exact. Let the selection be the files strictly below the start whose key starts
with the prefix and lies above the marker, without a missing or unreadable directory in between. A
page that succeeds has the first `n` of them in the order of their keys, with size and modification
time, and is truncated exactly when there are more. A missing start gives the empty page. A page
fails only with the error of its start, or of a directory that it has to open. -/
theorem flat_listing_exact (w : FlatListing) {list : Str → Except HdfsError (List FileStatus)}
    (hl : w.tree.Lists w.outcome list) {fuel n : ℕ} (hfuel : w.tree.nodes.length < fuel)
    (hn : 1 ≤ n) :
    let run := (SortedListing.collectPage fuel (some n)
      (.new (absPath w.start) w.pre w.after w.mapper)).eval (w.lister list)
    let startMissing := w.tree.IsDir w.start ∧ ∃ path, w.outcome w.start = some (.fileNotFound path)
    ∃ selected : List Inode,
      selected.Pairwise (fun x y => w.mapper.keyOf x.segs < w.mapper.keyOf y.segs) ∧
      (∀ x, x ∈ selected ↔ w.Selected x) ∧
      (startMissing → run = .ok ([], false)) ∧
      (∀ page truncated, run = .ok (page, truncated) → ¬ startMissing →
        page = (selected.take n).map (Inode.object w.mapper) ∧
          (truncated = true ↔ n < selected.length)) ∧
      ∀ err, run = .error err → ∃ e, err = .upstream e ∧ w.StopsAt selected n e := by
  intro run startMissing
  obtain ⟨selected, hs⟩ := w.exists_selection
  obtain ⟨events, he⟩ := w.exists_events
  refine ⟨selected, hs.keys_sorted, hs.mem_iff, ?_, ?_, ?_⟩
  · rintro ⟨hdir, path, hpath⟩
    exact page_of_startFails hl hdir hpath hfuel hn
  · intro page truncated hrun hmissing
    by_cases hstart : w.StartListed
    · rcases page_of_startListed hs he hl hstart hfuel hn with hpage | ⟨err, herr, -⟩
      · have hpair := Except.ok.inj (hrun.symm.trans hpage)
        obtain ⟨rfl, rfl⟩ := Prod.mk.inj hpair
        exact ⟨rfl, decide_eq_true_iff⟩
      · have hcon := hrun.symm.trans herr
        contradiction
    · obtain ⟨hdir, hout⟩ := not_or.mp hstart
      obtain ⟨err, herr⟩ := Option.ne_none_iff_exists'.mp hout
      have hfails := hrun.symm.trans (page_of_startFails hl (not_not.mp hdir) herr hfuel hn)
      cases err with
      | fileNotFound path => exact absurd ⟨not_not.mp hdir, path, herr⟩ hmissing
      | _ => contradiction
  · intro err hrun
    by_cases hstart : w.StartListed
    · rcases page_of_startListed hs he hl hstart hfuel hn with hpage | ⟨e, herr, hstops⟩
      · have hcon := hrun.symm.trans hpage
        contradiction
      · exact ⟨e, Except.error.inj (hrun.symm.trans herr), hstops⟩
    · obtain ⟨hdir, hout⟩ := not_or.mp hstart
      obtain ⟨e, herr⟩ := Option.ne_none_iff_exists'.mp hout
      have hfails := hrun.symm.trans (page_of_startFails hl (not_not.mp hdir) herr hfuel hn)
      cases e with
      | fileNotFound path => contradiction
      | _ =>
        exact ⟨_, Except.error.inj hfails, Or.inl ⟨not_not.mp hdir, herr, fun _ h => by contradiction⟩⟩

/-- One key of the sample with an unreadable directory. -/
theorem flat_listing_exact_sample :
    let w := sample fun p => if p = [[0x61]] then some (.rpcError "AccessControlException" "") else none
    let run := (SortedListing.collectPage 4 (some 1)
      (.new (absPath w.start) w.pre w.after w.mapper)).eval (w.lister (w.tree.reply w.outcome))
    let startMissing := w.tree.IsDir w.start ∧ ∃ path, w.outcome w.start = some (.fileNotFound path)
    ∃ selected : List Inode,
      selected.Pairwise (fun x y => w.mapper.keyOf x.segs < w.mapper.keyOf y.segs) ∧
      (∀ x, x ∈ selected ↔ w.Selected x) ∧
      (startMissing → run = .ok ([], false)) ∧
      (∀ page truncated, run = .ok (page, truncated) → ¬ startMissing →
        page = (selected.take 1).map (Inode.object w.mapper) ∧
          (truncated = true ↔ 1 < selected.length)) ∧
      ∀ err, run = .error err → ∃ e, err = .upstream e ∧ w.StopsAt selected 1 e :=
  flat_listing_exact (sample _) (Namespace.lists_reply _ _) (by decide) (Nat.le_refl 1)

/-! ## Opened directories -/

/-- Every possible child key of a directory sorts before the marker. -/
def WhollyBefore (w : FlatListing) (p : List Str) (marker : Str) : Prop :=
  ∀ name, Plain name → dirOutput (w.mapper.keyOf p) ++ name < marker

/-- The skip predicate of the engine is exact. -/
theorem dirChildrenAllBefore_iff_whollyBefore {p : List Str} {marker : Str} :
    dirChildrenAllBefore (w.mapper.keyOf p) marker = true ↔ w.WhollyBefore p marker := by
  rw [dirChildrenAllBefore_iff]
  constructor
  · exact fun h name _ => append_lt_of_lt h.1 h.2 name
  · intro h
    -- a long name of the greatest byte comes after everything else in the directory
    have hplain : Plain (List.replicate (marker.length + 1) 0xFF) := by
      refine ⟨by simp, fun hmem => absurd (List.eq_of_mem_replicate hmem) (by decide), ?_, ?_⟩
      · exact fun heq => absurd (congrArg List.head? heq) (by simp [dot, List.replicate_succ])
      · exact fun heq => absurd (congrArg List.head? heq) (by simp [dotdot, List.replicate_succ])
    have hlast := h _ hplain
    refine ⟨lt_of_le_of_lt (le_of_isPrefix (List.prefix_append _ _)) hlast, ?_⟩
    rintro ⟨t, rfl⟩
    rw [append_lt_append_iff] at hlast
    refine not_replicate_lt (fun b => ?_) ?_ hlast
    · exact UInt8.le_iff_toNat_le.mpr (Nat.le_of_lt_succ b.toNat_lt)
    · simp only [List.length_append]
      omega

/-- A directory of a readable tree is an event if, for itself and every directory between the start
and it, the key starts with the prefix and the marker leaves some child. -/
theorem isEvent_dir_iff (hread : ∀ p, w.outcome p = none) {d : Inode} (hdir : d.isdir = true) :
    w.IsEvent d ↔ w.Below d ∧ ∀ p, w.start <+: p → w.start ≠ p → p <+: d.segs →
      w.pre <+: w.mapper.keyOf p ∧ ∀ marker, w.after = some marker → ¬ w.WhollyBefore p marker := by
  have hpasses : ∀ {x : Inode}, x.isdir = true → (w.Passes x ↔ w.pre <+: w.mapper.keyOf x.segs ∧
      ∀ marker, w.after = some marker → ¬ w.WhollyBefore x.segs marker) := by
    intro x hx
    simp only [Passes, Inode.entry, hx, if_true, Behind, dirChildrenAllBefore_iff_whollyBefore]
  constructor
  · intro h
    refine ⟨h.toBelow, fun p habove hne hp => ?_⟩
    by_cases heq : p = d.segs
    · rw [heq]
      exact (hpasses hdir).mp h.passes
    · have htop : p ≠ [] := by
        rintro rfl
        exact hne (List.prefix_nil.mp habove)
      obtain ⟨x, hx, rfl, hxdir⟩ := w.tree.above d h.mem p htop hp heq
      exact (hpasses hxdir).mp (passes_of_covers ⟨hx, habove, hne⟩ hxdir h.mem hp h.passes)
  · rintro ⟨hbelow, hall⟩
    exact ⟨hbelow, (hpasses hdir).mpr (hall d.segs hbelow.above hbelow.ne_start List.prefix_rfl),
      fun p _ _ _ _ => hread p⟩

/-- In a readable tree no directory fails. -/
theorem fails_of_readable (hread : ∀ p, w.outcome p = none) (d : Inode) : w.fails d = none := by
  rw [fails, hread]
  rfl

/-- In a readable tree no page meets a failure. -/
theorem firstFailure_of_readable (hread : ∀ p, w.outcome p = none) (events : List Inode) :
    w.firstFailure events = none := by
  rw [firstFailure, List.findSome?_eq_none_iff]
  intro d _
  rw [fails_of_readable hread, ite_self]

/-- Over a readable tree a page lists the start and then the directories among its events. -/
theorem trace_collectPage {events : List Inode} (he : w.Events events)
    (hread : ∀ p, w.outcome p = none) (hl : w.tree.Lists w.outcome list) {fuel n : ℕ}
    (hfuel : w.tree.nodes.length < fuel) (hn : 1 ≤ n) :
    (w.fresh.collectPage fuel (some n)).trace (w.lister list) = absPath w.start ::
      ((upto events n).filter fun x => x.isdir).map fun d => absPath d.segs := by
  have hlimit : some n ≠ some 0 := by simpa using Nat.ne_of_gt hn
  have htrace := (collectPage_refines he hl (Or.inr (hread _)) hfuel hlimit).2
  have hopened := (w.collect_eq events n []).2 (firstFailure_of_readable hread _)
  rw [List.length_nil, Nat.zero_add] at hopened
  rw [hopened, List.map_map] at htrace
  exact htrace

/-- The directories among the events of a page come before the file after the page. -/
theorem Selection.mem_opened {selected events : List Inode} (hs : w.Selection selected)
    (he : w.Events events) (hread : ∀ p, w.outcome p = none) {n : ℕ} {d : Inode} :
    d ∈ (upto events n).filter (fun x => x.isdir) ↔ w.IsEvent d ∧ d.isdir = true ∧
      ∀ f, selected[n]? = some f → dirOutput (w.mapper.keyOf d.segs) < w.mapper.keyOf f.segs := by
  rw [List.mem_filter, mem_upto he.sorted, hs.eq_files he fun d _ _ => fails_of_readable hread d,
    he.mem_iff, and_assoc, and_comm (b := d.isdir = true)]
  apply and_congr_right'
  apply and_congr_right
  intro hdir
  apply forall₂_congr
  intro f hf
  rw [Inode.sortKey_dir hdir,
    Inode.sortKey_file ((hs.mem_iff f).mp (List.mem_of_getElem? hf)).file]

/-- Nodes below the start are told apart by their paths. -/
theorem Below.absPath_inj {d d' : Inode} (h : w.Below d) (h' : w.Below d')
    (heq : absPath d.segs = absPath d'.segs) : d = d' :=
  Namespace.eq_of_segs h.mem h'.mem (absPath_injective h.addressed.plain h'.addressed.plain heq)

/-- None of them has the path of the start. -/
theorem Below.absPath_ne_start {d : Inode} (h : w.Below d) : absPath d.segs ≠ absPath w.start :=
  fun heq => h.ne_start (absPath_injective h.addressed.plain w.plain heq).symm

/-- Over a readable tree a page lists the start and exactly those directories below it for which, as
for every directory between the start and them, the key starts with the prefix and the marker leaves
some child, and whose output key sorts before the key number `n + 1` of the listing; each once. -/
theorem opens_exactly (w : FlatListing) (hread : ∀ p, w.outcome p = none)
    {list : Str → Except HdfsError (List FileStatus)} (hl : w.tree.Lists w.outcome list)
    {fuel n : ℕ} (hfuel : w.tree.nodes.length < fuel) (hn : 1 ≤ n) :
    let visited := (SortedListing.collectPage fuel (some n)
      (.new (absPath w.start) w.pre w.after w.mapper)).trace (w.lister list)
    ∃ selected : List Inode,
      selected.Pairwise (fun x y => w.mapper.keyOf x.segs < w.mapper.keyOf y.segs) ∧
      (∀ x, x ∈ selected ↔ w.Selected x) ∧ visited.Nodup ∧
      ∀ path, path ∈ visited ↔ path = absPath w.start ∨
        ∃ d, w.Below d ∧ d.isdir = true ∧ path = absPath d.segs ∧
          (∀ p, w.start <+: p → w.start ≠ p → p <+: d.segs → w.pre <+: w.mapper.keyOf p ∧
            ∀ marker, w.after = some marker → ¬ w.WhollyBefore p marker) ∧
          ∀ f, selected[n]? = some f → dirOutput (w.mapper.keyOf d.segs) < w.mapper.keyOf f.segs := by
  intro visited
  obtain ⟨selected, hs⟩ := w.exists_selection
  obtain ⟨events, he⟩ := w.exists_events
  have hvisited : visited = _ := trace_collectPage he hread hl hfuel hn
  have hevent : ∀ {d}, d ∈ (upto events n).filter (fun x => x.isdir) → w.IsEvent d :=
    fun hd => ((hs.mem_opened he hread).mp hd).1
  refine ⟨selected, hs.keys_sorted, hs.mem_iff, ?_, fun path => ?_⟩
  · rw [hvisited, List.nodup_cons, List.mem_map]
    constructor
    · intro h
      obtain ⟨d, hd, heq⟩ := h
      exact (hevent hd).toBelow.absPath_ne_start heq
    · have hnodup := (he.nodup.sublist (upto_sublist events n)).filter fun x => x.isdir
      apply hnodup.map_on
      exact fun d hd d' hd' heq => (hevent hd).toBelow.absPath_inj (hevent hd').toBelow heq
  · rw [hvisited, List.mem_cons, List.mem_map]
    apply or_congr_right
    apply exists_congr
    intro d
    rw [hs.mem_opened he hread]
    constructor
    · rintro ⟨⟨hevent, hdir, hbound⟩, rfl⟩
      obtain ⟨hbelow, hall⟩ := (isEvent_dir_iff hread hdir).mp hevent
      exact ⟨hbelow, hdir, rfl, hall, hbound⟩
    · rintro ⟨hbelow, hdir, rfl, hall, hbound⟩
      exact ⟨⟨(isEvent_dir_iff hread hdir).mpr ⟨hbelow, hall⟩, hdir, hbound⟩, rfl⟩

/-- One key of the readable sample: its first directory is opened. -/
theorem opens_exactly_sample :
    let w := sample fun _ => none
    let visited := (SortedListing.collectPage 4 (some 1)
      (.new (absPath w.start) w.pre w.after w.mapper)).trace (w.lister (w.tree.reply w.outcome))
    ∃ selected : List Inode,
      selected.Pairwise (fun x y => w.mapper.keyOf x.segs < w.mapper.keyOf y.segs) ∧
      (∀ x, x ∈ selected ↔ w.Selected x) ∧ visited.Nodup ∧
      ∀ path, path ∈ visited ↔ path = absPath w.start ∨
        ∃ d, w.Below d ∧ d.isdir = true ∧ path = absPath d.segs ∧
          (∀ p, w.start <+: p → w.start ≠ p → p <+: d.segs → w.pre <+: w.mapper.keyOf p ∧
            ∀ marker, w.after = some marker → ¬ w.WhollyBefore p marker) ∧
          ∀ f, selected[1]? = some f → dirOutput (w.mapper.keyOf d.segs) < w.mapper.keyOf f.segs :=
  opens_exactly (sample _) (fun _ => rfl) (Namespace.lists_reply _ _) (by decide) (Nat.le_refl 1)

end FlatListing

end HdfsS3Gateway
