import HdfsS3Gateway.S3.ChangingWalk

/-!
# Pages of a namespace that changes

A file that is there throughout is on exactly one page of a walk, whatever else is created, removed
or renamed between two replies or between two pages. Within a page there is always a pending entry
on the way to it until it is emitted, and a page that ends before it ends with a smaller key, which
the next page resumes after.

No directory is listed twice for one page.
-/

namespace HdfsS3Gateway

open Interaction Lexicographic

namespace SortedListing

variable {fresh : SortedListing} {qs q : List Str} {log : List Exchange} {out : List ListEntry}
  {s s' : SortedListing}

/-! ## Whole runs -/

/-- Every state that a run reaches is one of a walk in order. -/
theorem Reached.walking (h : Reached fresh log out s) (hstarts : fresh.Starts qs)
    (horderly : Orderly fresh.mapper log) : Walking fresh qs log out s := by
  induction h with
  | seeded h => exact walking_seeded hstarts h horderly
  | turned h hturn ih =>
    have hwalking := ih horderly.of_append
    obtain ⟨hmapper, hpre, hafter, -⟩ := h.seeded_of_fresh hstarts.toIsFresh
    apply hwalking.turned hmapper (fun x hx => ?_) (hwalking.moved hmapper hturn horderly)
    rwa [Passes, ← hpre, ← hafter]

/-! ## No directory is listed twice -/

/-- The directories opened so far, in order: all strictly below the start, and before everything
pending. -/
structure Opened (m : PathMapper) (qs : List Str) (log : List Exchange) (s : SortedListing)
    (dirs : List (List Str)) : Prop where
  paths : log.map Sigma.fst =
    absPath (m.rootSegments ++ qs) :: dirs.map fun ks => absPath (m.rootSegments ++ ks)
  below : ∀ ks ∈ dirs, (∀ s ∈ ks, Plain s) ∧ qs.length < ks.length
  sorted : dirs.Pairwise fun a b => dirOutput (joinSlash a) < dirOutput (joinSlash b)
  before : ∀ ks ∈ dirs, ∀ x ∈ pending s.heap, dirOutput (joinSlash ks) < outputKey x

/-- A turn that lists nothing. -/
theorem Opened.idle {m : PathMapper} {dirs : List (List Str)} (h : Opened m qs log s dirs)
    (hmem : ∀ y ∈ pending s'.heap, y ∈ pending s.heap) : Opened m qs (log ++ []) s' dirs :=
  ⟨by rw [List.append_nil, h.paths], h.below, h.sorted, fun ks hks y hy => h.before ks hks y (hmem y hy)⟩

/-- A turn that lists a directory. -/
theorem Opened.list {m : PathMapper} {dirs : List (List Str)} {d path : Str}
    {reply : Except HdfsError DirListing} {kept rest : List (ListEntry ⊕ Str)}
    (h : Opened m qs log s dirs) (htook : Took s (.inr d) s' kept rest)
    (hpath : path = absPath (m.rootSegments ++ entrySegs (.inr d)))
    (hd : PlainEntry (.inr d)) (hbelow : qs.length < (entrySegs (.inr d)).length)
    (hkept : ∀ x ∈ kept, dirOutput d < outputKey x) :
    Opened m qs (log ++ [⟨path, reply⟩]) s' (dirs ++ [entrySegs (.inr d)]) := by
  have hkey : joinSlash (entrySegs (.inr d)) = d := joinSlash_entrySegs _
  refine ⟨by simp [h.paths, hpath], fun ks hks => ?_, ?_, fun ks hks y hy => ?_⟩
  · rcases List.mem_append.mp hks with hks | hks
    · exact h.below ks hks
    · rw [List.mem_singleton.mp hks]
      exact ⟨hd, hbelow⟩
  · refine List.pairwise_append.mpr ⟨h.sorted, List.pairwise_singleton _ _, fun ks hks ls hls => ?_⟩
    rw [List.mem_singleton.mp hls, hkey]
    exact h.before ks hks _ htook.mem
  · have hd : dirOutput d < outputKey y := (htook.mem_iff.mp hy).elim (hkept y) (htook.first y)
    rcases List.mem_append.mp hks with hks | hks
    · exact lt_trans (h.before ks hks _ htook.mem) hd
    · rwa [List.mem_singleton.mp hks, hkey]

/-- What a run has listed: the start, then directories in the order of their outputs. -/
theorem Reached.opened (h : Reached fresh log out s) (hstarts : fresh.Starts qs)
    (horderly : Orderly fresh.mapper log) : ∃ dirs, Opened fresh.mapper qs log s dirs := by
  induction h with
  | seeded h =>
    refine ⟨[], ?_, by simp, .nil, by simp⟩
    rcases seed_runs h with ⟨listing, rfl, rfl⟩ | ⟨path, rfl, rfl⟩ <;> simp [hstarts.start]
  | turned h hturn ih =>
    have hwalking := h.walking hstarts horderly.of_append
    obtain ⟨hmapper, -⟩ := h.seeded_of_fresh hstarts.toIsFresh
    obtain ⟨dirs, hopened⟩ := ih horderly.of_append
    have hmoved := hwalking.moved hmapper hturn horderly
    cases hmoved with
    | stop hnone hnone' => exact ⟨dirs, hopened.idle (by simp [hnone'])⟩
    | skip htook hskip =>
      exact ⟨dirs, hopened.idle fun y hy =>
        htook.mem_of_rest ((htook.mem_iff.mp hy).resolve_left List.not_mem_nil)⟩
    | emit htook hpass =>
      exact ⟨dirs, hopened.idle fun y hy =>
        htook.mem_of_rest ((htook.mem_iff.mp hy).resolve_left List.not_mem_nil)⟩
    | unlisted htook hpass hpath ht =>
      exact ⟨_, hopened.list htook (hmapper ▸ hpath) (hwalking.frontier.plain _ htook.mem)
        (hwalking.below _ htook.mem).2 (by simp)⟩
    | opened htook hpass hpath hgen hperm hdropped =>
      have hd := hwalking.frontier.plain _ htook.mem
      refine ⟨_, hopened.list htook (hmapper ▸ hpath) hd (hwalking.below _ htook.mem).2 fun x hx => ?_⟩
      have hmem := hperm.mem_iff.mpr (List.mem_append_right _ hx)
      obtain ⟨name, -, hsegs⟩ := hgen.segs hd hmem
      exact dirOutput_lt_outputKey hd (hgen.plain hd hmem) (hsegs ▸ List.prefix_append _ _)
        (by rw [hsegs]; simp)

/-- No directory is listed twice. -/
theorem Opened.nodup {m : PathMapper} {dirs : List (List Str)} (h : Opened m qs log s dirs)
    (hqs : ∀ s ∈ qs, Plain s) : (log.map Sigma.fst).Nodup := by
  have hinj : ∀ {a b : List Str}, (∀ s ∈ a, Plain s) → (∀ s ∈ b, Plain s) →
      absPath (m.rootSegments ++ a) = absPath (m.rootSegments ++ b) → a = b := by
    intro a b ha hb heq
    have hplain : ∀ ks : List Str, (∀ s ∈ ks, Plain s) → ∀ s ∈ m.rootSegments ++ ks, Plain s :=
      fun ks hks s hs => (List.mem_append.mp hs).elim (m.rootSegments_plain s) (hks s)
    exact List.append_cancel_left (absPath_injective (hplain a ha) (hplain b hb) heq)
  rw [h.paths, List.nodup_cons]
  constructor
  · intro hmem
    obtain ⟨ks, hks, heq⟩ := List.mem_map.mp hmem
    obtain ⟨hplain, hlen⟩ := h.below ks hks
    rw [hinj hplain hqs heq] at hlen
    exact lt_irrefl _ hlen
  · rw [List.nodup_iff_pairwise_ne, List.pairwise_map]
    apply h.sorted.imp_of_mem
    intro a b ha hb hlt heq
    rw [hinj (h.below a ha).1 (h.below b hb).1 heq] at hlt
    exact lt_irrefl _ hlt

/-! ## No lasting file is lost -/

/-- A file that the prefix and the marker let through. -/
structure Sought (fresh : SortedListing) (q : List Str) : Prop where
  plain : ∀ s ∈ q, Plain s
  ne_nil : q ≠ []
  pre : fresh.pre <+: joinSlash q
  after : ∀ marker, fresh.after = some marker → marker < joinSlash q

/-- The entry is the file, or a directory on the way to it. -/
structure Leads (qs q : List Str) (x : ListEntry ⊕ Str) : Prop where
  above : entrySegs x <+: q
  below : qs.length < (entrySegs x).length
  file_iff : x.isLeft = true ↔ entrySegs x = q

/-- An entry on the way to a sought file comes at or before it. -/
theorem Leads.outputKey_le {x : ListEntry ⊕ Str} (h : Leads qs q x) : outputKey x ≤ joinSlash q := by
  cases x with
  | inl e =>
    rw [← h.file_iff.mp rfl, joinSlash_entrySegs]
    exact le_refl _
  | inr d =>
    have hne : entrySegs (.inr d) ≠ q := fun heq => by simpa using h.file_iff.mpr heq
    have hpre := dirOutput_joinSlash_prefix (entrySegs_ne_nil _) h.above hne
    rw [joinSlash_entrySegs] at hpre
    exact le_of_isPrefix hpre

/-- The start lies strictly above every sought file. -/
theorem Sought.above (h : fresh.Sought q) (hstarts : fresh.Starts qs) :
    qs <+: q ∧ qs ≠ q ∧
      ∀ ks, qs <+: ks → qs ≠ ks → ks <+: q → fresh.pre <+: joinSlash ks := by
  have hroot : ∀ ks : List Str, (∀ s ∈ ks, Plain s) →
      ∀ s ∈ fresh.mapper.rootSegments ++ ks, Plain s := fun ks hks s hs =>
    (List.mem_append.mp hs).elim (fresh.mapper.rootSegments_plain s) (hks s)
  have haddr : fresh.mapper.Addressed (fresh.mapper.rootSegments ++ q) :=
    ⟨hroot q h.plain, List.prefix_append _ _, fun heq => h.ne_nil (List.append_right_eq_self.mp heq)⟩
  have hpre : fresh.pre <+: fresh.mapper.keyOf (fresh.mapper.rootSegments ++ q) := by
    rw [fresh.mapper.keyOf_append]
    exact h.pre
  obtain ⟨habove, hne, hbetween⟩ := PathMapper.listStart_above (hroot qs hstarts.plain)
    (hstarts.start ▸ hstarts.lists) haddr hpre
  refine ⟨(List.prefix_append_right_inj _).mp habove, fun heq => hne (by rw [heq]), ?_⟩
  intro ks hqs hneq hks
  have hks' := hbetween _ ((List.prefix_append_right_inj _).mpr hqs)
    (fun heq => hneq (List.append_cancel_left heq)) ((List.prefix_append_right_inj _).mpr hks)
  rwa [fresh.mapper.keyOf_append] at hks'

/-- The prefix and the marker let every entry on the way to a sought file through. -/
theorem Leads.passes {x : ListEntry ⊕ Str} (h : Leads qs q x) (hstarts : fresh.Starts qs)
    (hq : fresh.Sought q) : fresh.Passes x := by
  obtain ⟨habove, -, hbetween⟩ := hq.above hstarts
  have hqs : qs <+: entrySegs x := List.prefix_of_prefix_length_le habove h.above h.below.le
  have hpre := hbetween _ hqs (fun heq => (heq ▸ h.below).ne rfl) h.above
  rw [joinSlash_entrySegs] at hpre
  refine ⟨hpre, fun marker hmarker hbehind => ?_⟩
  have hlt := hq.after marker hmarker
  cases x with
  | inl e =>
    have hkey : e.key = joinSlash q := by rw [← h.file_iff.mp rfl, joinSlash_entrySegs]; rfl
    exact absurd hlt (not_lt.mpr (hkey ▸ hbehind))
  | inr d =>
    have hne : entrySegs (.inr d) ≠ q := fun heq => by simpa using h.file_iff.mpr heq
    obtain ⟨t, ht⟩ := dirOutput_joinSlash_prefix (entrySegs_ne_nil _) h.above hne
    rw [joinSlash_entrySegs, entryKey_inr] at ht
    rw [Behind, dirChildrenAllBefore_iff] at hbehind
    exact absurd hlt (lt_asymm (ht ▸ append_lt_of_lt hbehind.1 hbehind.2 t))

/-- A reply on the way to a lasting file names an entry on the way to it. -/
theorem leads_next {m : PathMapper} {log : List Exchange} (h : Lasting m log q)
    (hq : ∀ s ∈ q, Plain s) {ks : List Str} {r : Except HdfsError DirListing} (hks : ks <+: q)
    (hne : ks ≠ q) (hlen : qs.length ≤ ks.length)
    (hmem : ⟨absPath (m.rootSegments ++ ks), r⟩ ∈ log) :
    ∃ listing, r = .ok listing ∧ ∃ x ∈ listing.entries, Leads qs q x := by
  obtain ⟨zs, rfl⟩ := hks
  obtain ⟨name, zs, rfl⟩ := List.exists_cons_of_ne_nil fun hz : zs = [] => hne (by simp [hz])
  have hnext : ks ++ [name] <+: ks ++ name :: zs := ⟨zs, by simp⟩
  obtain ⟨listing, rfl, x, hx, hkey, hkind⟩ := h ks name r hnext hmem
  have hsegs : entrySegs x = ks ++ [name] :=
    entrySegs_eq (fun s hs => hq s (hnext.subset hs)) (by simp) hkey
  refine ⟨listing, rfl, x, hx, hsegs ▸ hnext, ?_, hsegs ▸ hkind⟩
  rw [hsegs, List.length_append]
  exact Nat.lt_succ_of_le hlen

/-- After the start was listed there is an entry on the way to the file. -/
theorem leads_seeded (hstarts : fresh.Starts qs) (h : fresh.seed.Runs log (.ok s))
    (horderly : Orderly fresh.mapper log) (hq : fresh.Sought q)
    (hlasting : Lasting fresh.mapper log q) : ∃ x ∈ pending s.heap, Leads qs q x := by
  obtain ⟨habove, hne, -⟩ := hq.above hstarts
  have hcall : ∀ r : Except HdfsError DirListing,
      (⟨absPath (fresh.mapper.rootSegments ++ qs), r⟩ : Exchange) ∈ [⟨fresh.start, r⟩] := by
    intro r
    rw [hstarts.start]
    exact List.mem_singleton_self _
  rcases pending_seeded hstarts h horderly with
    ⟨-, path, rfl⟩ | ⟨listing, dropped, ks, rfl, hperm, hdropped, -, -, -⟩
  · obtain ⟨listing, hr, -⟩ := leads_next hlasting hq.plain habove hne (le_refl qs.length)
      (hcall _)
    contradiction
  · obtain ⟨found, hr, x, hx, hleads⟩ := leads_next hlasting hq.plain habove hne (le_refl qs.length)
      (hcall _)
    obtain rfl := Except.ok.inj hr
    refine ⟨x, ?_, hleads⟩
    rcases List.mem_append.mp (hperm.mem_iff.mp hx) with hx | hx
    · exact absurd (hleads.passes hstarts hq) (hdropped x hx)
    · exact hx

/-- A file that every reply on its way names is emitted, or there is an entry on the way to it. -/
theorem Reached.complete (h : Reached fresh log out s) (hstarts : fresh.Starts qs)
    (horderly : Orderly fresh.mapper log) (hq : fresh.Sought q)
    (hlasting : Lasting fresh.mapper log q) :
    (∃ e ∈ out, e.key = joinSlash q) ∨ ∃ x ∈ pending s.heap, Leads qs q x := by
  induction h with
  | seeded h => exact .inr (leads_seeded hstarts h horderly hq hlasting)
  | @turned log log' out s s' t h hturn ih =>
    have hwalking := h.walking hstarts horderly.of_append
    obtain ⟨hmapper, hpre, hafter, -⟩ := h.seeded_of_fresh hstarts.toIsFresh
    have hmoved := hwalking.moved hmapper hturn horderly
    rcases ih horderly.of_append hlasting.of_append with ⟨e, he, hkey⟩ | ⟨x, hx, hleads⟩
    · exact .inl ⟨e, List.mem_append_left _ he, hkey⟩
    have hpass : s.Passes x := by
      have hfresh := hleads.passes hstarts hq
      rwa [Passes, ← hpre, ← hafter] at hfresh
    -- whatever is taken, another entry on the way stays pending
    have hstays : ∀ {y kept rest}, Took s y s' kept rest → x ≠ y → x ∈ pending s'.heap := by
      intro y kept rest htook hxy
      exact htook.mem_iff.mpr (.inr (List.mem_of_ne_of_mem hxy (htook.before.mem_iff.mp hx)))
    have hcall : ∀ {path : Str} {r : Except HdfsError DirListing} {ks : List Str},
        path = absPath (s.mapper.rootSegments ++ ks) →
        (⟨absPath (fresh.mapper.rootSegments ++ ks), r⟩ : Exchange) ∈ log ++ [⟨path, r⟩] := by
      intro path r ks hpath
      rw [hpath, hmapper]
      exact List.mem_append_right _ (List.mem_singleton_self _)
    cases hmoved with
    | stop hnone hnone' => exact absurd hx (by simp [hnone])
    | skip htook hskip =>
      refine .inr ⟨x, hstays htook ?_, hleads⟩
      rintro rfl
      rcases hskip with hno | ⟨d, rfl, hpath⟩
      · exact hno hpass
      · have hpath' := path_of_plain (m := s.mapper) (hwalking.frontier.plain _ hx)
        rw [entryKey_inr, hpath] at hpath'
        contradiction
    | @emit e rest _ htook hpass' =>
      by_cases hxe : x = .inl e
      · refine .inl ⟨e, by simp [Turn.emitted], ?_⟩
        rw [← hleads.file_iff.mp (hxe ▸ rfl), joinSlash_entrySegs, hxe, entryKey_inl]
      · exact .inr ⟨x, hstays htook hxe, hleads⟩
    | @unlisted d path err rest _ _ htook hpass' hpath ht =>
      refine .inr ⟨x, hstays htook ?_, hleads⟩
      rintro rfl
      have hne : entrySegs (.inr d) ≠ q := fun heq => by simpa using hleads.file_iff.mpr heq
      obtain ⟨listing, hr, -⟩ := leads_next hlasting hq.plain hleads.above hne hleads.below.le
        (hcall hpath)
      contradiction
    | @opened d path listing dropped kept rest _ htook hpass' hpath hgen hperm hdropped =>
      by_cases hxd : x = .inr d
      · subst hxd
        have hne : entrySegs (.inr d) ≠ q := fun heq => by simpa using hleads.file_iff.mpr heq
        obtain ⟨found, hr, y, hy, hnext⟩ := leads_next hlasting hq.plain hleads.above hne
          hleads.below.le (hcall hpath)
        obtain rfl := Except.ok.inj hr
        refine .inr ⟨y, htook.mem_iff.mpr (.inl ?_), hnext⟩
        rcases List.mem_append.mp (hperm.mem_iff.mp hy) with hy | hy
        · have hfresh := hnext.passes hstarts hq
          rw [Passes, ← hpre, ← hafter] at hfresh
          exact absurd hfresh (hdropped y hy)
        · exact hy
      · exact .inr ⟨x, hstays htook hxd, hleads⟩

/-! ## A page -/

/-- All entries emitted for a page, with the probe for another one: they are in strict order, the
prefix and the marker let them through, each was named by a reply, and a lasting file is among them,
or the page is truncated before it. -/
theorem Collected.exists_all {limit : Option ℕ} {page : List ListEntry} {truncated : Bool}
    (h : Collected fresh limit log page truncated) (hstarts : fresh.Starts qs)
    (horderly : Orderly fresh.mapper log) :
    ∃ all : List ListEntry, all.Pairwise (fun a b => a.key < b.key) ∧
      (∀ e ∈ all, fresh.Passes (.inl e) ∧ Names fresh.mapper log (.inl e)) ∧
      (∀ q, fresh.Sought q → Lasting fresh.mapper log q → (∃ e ∈ all, e.key = joinSlash q) ∨
        truncated = true ∧ ∀ e ∈ all, e.key < joinSlash q) ∧
      (truncated = false → page = all) ∧
      (truncated = true → limit = some page.length ∧ ∃ last, all = page ++ [last]) := by
  cases truncated with
  | false =>
    obtain ⟨s, hs, hnone⟩ := h.ended rfl
    have hw := hs.walking hstarts horderly
    refine ⟨page, hw.sorted, fun e he => ⟨hw.passes e he, hw.named e he⟩, fun q hq hlasting => ?_,
      fun _ => rfl, by simp⟩
    refine .inl ((hs.complete hstarts horderly hq hlasting).resolve_right ?_)
    rw [hnone]
    simp
  | true =>
    obtain ⟨hfull, s, last, hs⟩ := h.more rfl
    have hw := hs.walking hstarts horderly
    refine ⟨page ++ [last], hw.sorted, fun e he => ⟨hw.passes e he, hw.named e he⟩,
      fun q hq hlasting => ?_, by simp, fun _ => ⟨hfull, last, rfl⟩⟩
    refine (hs.complete hstarts horderly hq hlasting).imp_right fun ⟨x, hx, hleads⟩ =>
      ⟨rfl, fun a ha => lt_of_lt_of_le (hw.above a ha x hx) hleads.outputKey_le⟩

/-- Whatever a page ends with, no directory was listed twice for it. -/
theorem listed_nodup (hstarts : fresh.Starts qs) {fuel : ℕ} {limit : Option ℕ}
    {result : Except ListError (List ListEntry × Bool)}
    (h : (fresh.collectPage fuel limit).Runs log result) (horderly : Orderly fresh.mapper log) :
    (log.map Sigma.fst).Nodup := by
  unfold collectPage at h
  split at h
  · rw [(Prog.runs_ret.mp h).1]
    exact List.nodup_nil
  · rcases collectLoop_turns hstarts.toIsFresh (.inr ⟨rfl, rfl, rfl⟩) h with
      ⟨out, s, hs | ⟨rfl, -, -⟩⟩ | ⟨reply, hlog⟩
    · obtain ⟨dirs, hdirs⟩ := hs.opened hstarts horderly
      exact hdirs.nodup hstarts.plain
    · exact List.nodup_nil
    · obtain rfl : log = _ := hlog
      exact List.nodup_singleton _

end SortedListing

end HdfsS3Gateway
