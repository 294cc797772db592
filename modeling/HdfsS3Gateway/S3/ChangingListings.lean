import HdfsS3Gateway.S3.ChangingPages
import HdfsS3Gateway.S3.Staleness

/-!
# Listings while HDFS changes

A listing request runs beside other requests while HDFS changes, and its directories may come from
the cache. Whatever it is told is a reply that HDFS gave at some time, so what a page is follows
from the replies in the log of the run alone. A file that every listing of a directory above it
names is on the page, or the page ends before it.
-/

namespace HdfsS3Gateway

open Interaction History

/-! ## The replies of HDFS -/

/-- HDFS gave this reply to a listing of the path. -/
def Listed (log : List Event) (path : Str) (r : Except HdfsError (List FileStatus)) : Prop :=
  ∃ e ∈ log, e.Replies (.listStatus path) r

/-- The statuses of a directory: children with different names. -/
structure DirStatuses (p : List Str) (statuses : List FileStatus) : Prop where
  child : ∀ s ∈ statuses, ∃ name, Plain name ∧ s.path = absPath (p ++ [name])
  nodup : (statuses.map FileStatus.path).Nodup

/-- The statuses of a file, which is listed as itself. -/
def FileStatuses (p : List Str) (statuses : List FileStatus) : Prop :=
  ∃ s, statuses = [s] ∧ s.path = absPath p ∧ s.isdir = false

/-- HDFS lists directories and files, and no path that it listed as a file was ever named as a
directory. -/
def Settled (log : List Event) : Prop :=
  ∀ p statuses, (∀ s ∈ p, Plain s) → Listed log (absPath p) (.ok statuses) →
    DirStatuses p statuses ∨ FileStatuses p statuses ∧
      ∀ dir others, (∀ s ∈ dir, Plain s) → Listed log (absPath dir) (.ok others) →
        ∀ s ∈ others, s.path = absPath p → s.isdir = false

/-- Whenever a directory above the file was listed, the next node on the way was there. -/
def Persists (log : List Event) (p : List Str) : Prop :=
  ∀ dir name r, dir ++ [name] <+: p → Listed log (absPath dir) r →
    ∃ statuses, r = .ok statuses ∧ ∃ s ∈ statuses, s.path = absPath (dir ++ [name]) ∧
      (s.isdir = false ↔ dir ++ [name] = p)

/-! ## What the engine is told -/

/-- The engine was told what HDFS answered at some time. -/
def Relays (m : PathMapper) (log : List Event) (e : Exchange) : Prop :=
  ∃ r, Listed log e.1 r ∧ e.2 = r.map fun statuses => listingFromStatuses statuses m

/-- What HDFS answered it still answered later. -/
theorem Listed.append {log added : List Event} {path : Str} {r : Except HdfsError (List FileStatus)}
    (h : Listed log path r) : Listed (log ++ added) path r := by
  obtain ⟨e, he, hreply⟩ := h
  exact ⟨e, List.mem_append_left _ he, hreply⟩

theorem relays_append {m : PathMapper} {log added : List Event} {e : Exchange}
    (h : Relays m log e) : Relays m (log ++ added) e := by
  obtain ⟨r, hr, heq⟩ := h
  exact ⟨r, Listed.append hr, heq⟩

section Entries

variable {m : PathMapper}

/-- A path below the root that is made of names. -/
theorem addressed_root {ks : List Str} (hks : ∀ s ∈ ks, Plain s) (hne : ks ≠ []) :
    m.Addressed (m.rootSegments ++ ks) :=
  ⟨fun s hs => (List.mem_append.mp hs).elim (m.rootSegments_plain s) (hks s),
    List.prefix_append _ _, fun h => hne (List.append_right_eq_self.mp h)⟩

/-- The entry of a status below the root. -/
theorem childEntry_below {s : FileStatus} {ks : List Str} (hks : ∀ s ∈ ks, Plain s) (hne : ks ≠ [])
    (hpath : s.path = absPath (m.rootSegments ++ ks)) :
    ∃ x, childEntry m s = some x ∧ entryKey x = joinSlash ks ∧ (x.isLeft = true ↔ s.isdir = false) := by
  have haddr : m.Addressed (m.rootSegments ++ ks) := addressed_root hks hne
  have hkey : m.hdfsPathToKey s.path = some (joinSlash ks) := by
    rw [hpath, m.hdfsPathToKey_absPath haddr.plain, if_pos haddr.root, m.keyOf_append]
  have hnil : joinSlash ks ≠ [] := m.keyOf_append ks ▸ haddr.keyOf_ne_nil
  unfold childEntry
  rw [hkey]
  simp only [if_neg hnil]
  cases hdir : s.isdir
  · exact ⟨_, rfl, rfl, by simp⟩
  · exact ⟨_, rfl, rfl, by simp⟩

/-- The root itself is no entry. -/
theorem childEntry_root {s : FileStatus} (hpath : s.path = absPath m.rootSegments) :
    childEntry m s = none := by
  have hkey : m.hdfsPathToKey s.path = some [] := by
    rw [hpath, m.hdfsPathToKey_absPath m.rootSegments_plain, if_pos List.prefix_rfl]
    have hnil := m.keyOf_append []
    rwa [List.append_nil, joinSlash_nil, ← Option.some_inj] at hnil
  simp [childEntry, hkey]

theorem mem_entries {statuses : List FileStatus} {x : ListEntry ⊕ Str} :
    x ∈ (listingFromStatuses statuses m).entries ↔ ∃ s ∈ statuses, childEntry m s = some x := by
  rw [(Namespace.entries_listingFromStatuses statuses m).mem_iff, List.mem_filterMap]

/-- The listing of a directory below the root is genuine. -/
theorem genuine_of_statuses {ks : List Str} {statuses : List FileStatus} (hks : ∀ s ∈ ks, Plain s)
    (h : DirStatuses (m.rootSegments ++ ks) statuses) :
    Genuine ks (listingFromStatuses statuses m) := by
  have hchild : ∀ s ∈ statuses, ∃ name x, Plain name ∧
      s.path = absPath (m.rootSegments ++ (ks ++ [name])) ∧ childEntry m s = some x ∧
      entryKey x = joinSlash (ks ++ [name]) ∧ entrySegs x = ks ++ [name] := by
    intro s hs
    obtain ⟨name, hname, hpath⟩ := h.child s hs
    have hplain : ∀ t ∈ ks ++ [name], Plain t := fun t ht =>
      (List.mem_append.mp ht).elim (hks t) fun ht => List.mem_singleton.mp ht ▸ hname
    rw [List.append_assoc] at hpath
    obtain ⟨x, hx, hkey, -⟩ := childEntry_below hplain (by simp) hpath
    exact ⟨name, x, hname, hpath, hx, hkey, entrySegs_eq hplain (by simp) hkey⟩
  constructor
  · intro x hx
    obtain ⟨s, hs, hentry⟩ := mem_entries.mp hx
    obtain ⟨name, y, hname, -, hy, hkey, -⟩ := hchild s hs
    obtain rfl := Option.some.inj (hentry.symm.trans hy)
    exact ⟨name, hname, hkey⟩
  · rw [((Namespace.entries_listingFromStatuses statuses m).map entryKey).nodup_iff,
      List.nodup_iff_pairwise_ne, List.pairwise_map, List.pairwise_filterMap]
    apply (List.pairwise_map.mp h.nodup).imp_of_mem
    intro s s' hs hs' hne x hx y hy heq
    obtain ⟨name, x', -, hpath, hx', -, hsegs⟩ := hchild s hs
    obtain ⟨name', y', -, hpath', hy', -, hsegs'⟩ := hchild s' hs'
    obtain rfl := Option.some.inj (hx.symm.trans hx')
    obtain rfl := Option.some.inj (hy.symm.trans hy')
    have hsame : ks ++ [name] = ks ++ [name'] := by
      rw [← hsegs, ← hsegs', entrySegs, entrySegs, heq]
    exact hne (by rw [hpath, hpath', hsame])

/-- The listing of a file below the root is the file itself. -/
theorem fileItself_of_statuses {ks : List Str} {statuses : List FileStatus}
    (hks : ∀ s ∈ ks, Plain s) (h : FileStatuses (m.rootSegments ++ ks) statuses) :
    FileItself ks (listingFromStatuses statuses m) := by
  obtain ⟨s, rfl, hpath, hfile⟩ := h
  by_cases hne : ks = []
  · left
    rw [hne, List.append_nil] at hpath
    apply List.eq_nil_iff_forall_not_mem.mpr
    intro x hx
    obtain ⟨s', hs', hentry⟩ := mem_entries.mp hx
    rw [List.mem_singleton.mp hs', childEntry_root hpath] at hentry
    contradiction
  · right
    obtain ⟨x, hx, hkey, hkind⟩ := childEntry_below hks hne hpath
    obtain ⟨e, rfl⟩ := Sum.isLeft_iff.mp (hkind.mpr hfile)
    refine ⟨e, List.perm_singleton.mp ?_, hkey, hne⟩
    have hperm := Namespace.entries_listingFromStatuses [s] m
    rwa [List.filterMap_cons, hx] at hperm

/-- The kind of a named path below the root. -/
theorem isdir_of_mem_entries {ks : List Str} {statuses : List FileStatus} (hks : ∀ s ∈ ks, Plain s)
    (h : DirStatuses (m.rootSegments ++ ks) statuses ∨ FileStatuses (m.rootSegments ++ ks) statuses)
    {d : Str} (hd : .inr d ∈ (listingFromStatuses statuses m).entries) : PlainEntry (.inr d) ∧
    ∃ s ∈ statuses, s.path = absPath (m.rootSegments ++ splitSlash d) ∧ s.isdir = true := by
  obtain ⟨s, hs, hentry⟩ := mem_entries.mp hd
  have hbelow : ∀ ls : List Str, (∀ t ∈ ls, Plain t) → ls ≠ [] →
      s.path = absPath (m.rootSegments ++ ls) → PlainEntry (.inr d) ∧
      ∃ s ∈ statuses, s.path = absPath (m.rootSegments ++ splitSlash d) ∧ s.isdir = true := by
    intro ls hls hne hpath
    obtain ⟨x, hx, hkey, hkind⟩ := childEntry_below hls hne hpath
    obtain rfl := Option.some.inj (hentry.symm.trans hx)
    have hsegs : splitSlash d = ls := entrySegs_eq hls hne hkey
    refine ⟨fun t ht => hls t (hsegs ▸ ht), s, hs, hsegs ▸ hpath, ?_⟩
    by_contra hfile
    simpa using hkind.mpr (Bool.eq_false_iff.mpr hfile)
  rcases h with hdir | ⟨s', rfl, hpath, hfile⟩
  · obtain ⟨name, hname, hpath⟩ := hdir.child s hs
    rw [List.append_assoc] at hpath
    refine hbelow (ks ++ [name]) (fun t ht => ?_) (by simp) hpath
    exact (List.mem_append.mp ht).elim (hks t) fun ht => List.mem_singleton.mp ht ▸ hname
  · rw [List.mem_singleton.mp hs] at hentry hbelow
    by_cases hne : ks = []
    · rw [hne, List.append_nil] at hpath
      rw [childEntry_root hpath] at hentry
      contradiction
    · exact hbelow ks hks hne hpath

end Entries

section Relayed

variable {m : PathMapper} {log : List Event} {told : List Exchange}

/-- A relayed listing comes from statuses. -/
theorem Lists.statuses {ks : List Str} {listing : DirListing} (h : Lists m told ks listing)
    (hrelays : ∀ e ∈ told, ∀ listing, e.2 = .ok listing → Relays m log e) :
    ∃ statuses, Listed log (absPath (m.rootSegments ++ ks)) (.ok statuses) ∧
      listing = listingFromStatuses statuses m := by
  obtain ⟨r, hr, heq⟩ := hrelays _ h.2 listing rfl
  cases r with
  | error err => simp [Except.map] at heq
  | ok statuses => exact ⟨statuses, hr, Except.ok.inj heq⟩

/-- What the engine is told is orderly if HDFS is settled. -/
theorem orderly_of_settled (h : Settled log)
    (hrelays : ∀ e ∈ told, ∀ listing, e.2 = .ok listing → Relays m log e) : Orderly m told := by
  have hplain : ∀ ks : List Str, (∀ s ∈ ks, Plain s) → ∀ s ∈ m.rootSegments ++ ks, Plain s :=
    fun ks hks s hs => (List.mem_append.mp hs).elim (m.rootSegments_plain s) (hks s)
  intro ks listing hlists
  obtain ⟨statuses, hlisted, rfl⟩ := hlists.statuses hrelays
  rcases h _ statuses (hplain ks hlists.1) hlisted with hdir | ⟨hfile, hno⟩
  · exact .inl (genuine_of_statuses hlists.1 hdir)
  · refine .inr ⟨fileItself_of_statuses hlists.1 hfile, ?_⟩
    rintro ⟨ls, other, hother, hmem⟩
    obtain ⟨others, hlisted', rfl⟩ := hother.statuses hrelays
    have hkinds := (h _ others (hplain ls hother.1) hlisted').imp_right And.left
    obtain ⟨hd, s, hs, hpath, hdir⟩ := isdir_of_mem_entries hother.1 hkinds hmem
    by_cases hne : ks = []
    · -- the root has no key, and no entry has the empty one
      have hmem : ([] : Str) ∈ entrySegs (.inr (joinSlash ks)) := by simp [hne, entrySegs]
      exact (hd [] hmem).ne_nil rfl
    · rw [splitSlash_joinSlash (fun s hs => (hlists.1 s hs).slash_not_mem) hne] at hpath
      have hfalse := hno _ others (hplain ls hother.1) hlisted' s hs hpath
      rw [hdir] at hfalse
      contradiction

/-- A file that persists in HDFS lasts for the engine. -/
theorem lasting_of_persists {q : List Str} (hq : ∀ s ∈ q, Plain s)
    (h : Persists log (m.rootSegments ++ q)) (hrelays : ∀ e ∈ told, Relays m log e) :
    Lasting m told q := by
  intro ks name r hpre hmem
  obtain ⟨reply, hlisted, rfl⟩ := hrelays _ hmem
  obtain ⟨statuses, rfl, s, hs, hpath, hkind⟩ :=
    h (m.rootSegments ++ ks) name reply (by rw [List.append_assoc]; exact (List.prefix_append_right_inj _).mpr hpre) hlisted
  rw [List.append_assoc] at hpath hkind
  obtain ⟨x, hx, hkey, hleft⟩ := childEntry_below (m := m)
    (fun t ht => hq t (hpre.subset ht)) (by simp) hpath
  refine ⟨_, rfl, x, mem_entries.mpr ⟨s, hs, hx⟩, hkey, hleft.trans (hkind.trans ?_)⟩
  exact List.append_right_inj _

end Relayed

/-! ## Requests -/

namespace HdfsGateway

variable {self : HdfsGateway} {H : Type} {hdfs : Hdfs H} {tid : ℕ} {w w' : World self.crates H}

/-- What was relayed stays relayed when others have moved on. -/
theorem relays_later {e : Exchange} (hle : (self.dated hdfs).later tid w w')
    (h : Relays self.mapper w.log e) : Relays self.mapper w'.log e := by
  obtain ⟨added, hlog, -⟩ := hle
  exact hlog ▸ relays_append h

/-- A listing that is found in the cache was answered by HDFS before. -/
theorem relays_of_hit {dir : Str} {listing : DirListing} (hdated : self.Dated w)
    (hexec : w.Exec hdfs tid (.cacheGet .dirs dir) (some listing) w') :
    Relays self.mapper w.log ⟨dir, .ok listing⟩ := by
  obtain ⟨t, hheld, -⟩ := hexec.hit
  obtain ⟨before, i, after, hlog, ⟨hinsert, -⟩, -⟩ := hdated.entries .dirs dir listing t hheld
  have htold : Told self.mapper i.tid .dirs dir listing before :=
    hdated.inserts before i after hlog .dirs dir listing hinsert
  obtain ⟨first, a, second, rfl, ⟨-, statuses, hreply, rfl⟩, -⟩ := htold
  exact ⟨.ok statuses, ⟨a, by rw [hlog]; simp, hreply⟩, rfl⟩

/-- Listing a directory returns what HDFS answered at some time. -/
theorem listDir_relays (dir : Str) (w : World self.crates H) :
    (self.listDir dir).Ensures (self.dated hdfs) tid
      (fun v r => Relays self.mapper v.log ⟨dir, r⟩) w := by
  apply Prog.ensures_bind
  apply ensures_command
  · intro name path value weight hc
    cases hc
  · intro w' r w'' hdated hexec v hle
    cases r with
    | some listing =>
      have hrelays : Relays self.mapper w''.log ⟨dir, .ok listing⟩ := by
        rw [hexec.frame.2.2]
        exact relays_append (relays_of_hit hdated hexec)
      have hv : Relays self.mapper v.log ⟨dir, .ok listing⟩ := relays_later hle hrelays
      exact fun v' hle' => relays_later hle' hv
    | none =>
      apply ensures_upstream
      intro r v' htold
      have hlisted : Listed v'.log dir r := by
        obtain ⟨before, a, after, hlog, ⟨-, hreply⟩, -⟩ := htold
        exact ⟨a, by rw [hlog]; simp, hreply⟩
      suffices hvalue : Prog.Ensures (self.dated hdfs) tid _
          (fun _ a => a = r.map fun statuses => listingFromStatuses statuses self.mapper) v' by
        have hlater : ∀ u u', (self.dated hdfs).later tid u u' → Listed u.log dir r →
            Listed u'.log dir r := by
          rintro u u' ⟨added, hlog, -⟩ h
          exact hlog ▸ Listed.append h
        refine (hvalue.frame hlater
          (fun u c r u' hexec h => hexec.frame.2.2 ▸ Listed.append h) hlisted).mono ?_
        rintro _ _ ⟨rfl, h⟩
        exact ⟨r, h, rfl⟩
      cases r with
      | error err => exact fun _ _ => rfl
      | ok statuses =>
        simp only []
        split
        · apply Prog.ensures_bind
          apply (ensures_insert _).mono fun _ _ _ _ _ => rfl
          exact htold.mono fun e _ he => ⟨he.1, statuses, he.2, rfl⟩
        · exact fun _ _ => rfl

end HdfsGateway

end HdfsS3Gateway
