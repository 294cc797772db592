import HdfsS3Gateway.Core.SlashPages
import HdfsS3Gateway.Core.Tokens
import HdfsS3Gateway.S3.ChangingListings
import HdfsS3Gateway.S3.ListPages

/-!
# What a page is made of while HDFS changes

Each of the three ways to build a page cuts it from a list of outputs: those of the merged subtree,
their groups, or those of one directory. While HDFS changes the list itself is not determined, but
it is in strict order, every output on it was named by HDFS, and the output of a file that persists
is on it, or beyond what the page can hold.
-/

namespace HdfsS3Gateway

open Interaction Lexicographic

/-! ## Outputs of files -/

/-- A file that a listing with these arguments is to put out. -/
structure SoughtFile (args : ListArgs) (q : List Str) : Prop where
  plain : ∀ s ∈ q, Plain s
  ne_nil : q ≠ []
  guard : args.pre ≠ dot ∧ args.pre ≠ dotdot
  pre : args.pre <+: joinSlash q
  after : ∀ marker, args.startAfter = some marker →
    marker < (collapse args.pre args.delimiter (joinSlash q)).getD (joinSlash q)

/-- The output that a key is part of: the object itself, or its group. -/
def PutsOut (args : ListArgs) (key : Str) : Output → Prop
  | .inl e => e.key = key ∧ collapse args.pre args.delimiter key = none
  | .inr p => collapse args.pre args.delimiter key = some p

/-- Its key. -/
theorem PutsOut.key_eq {args : ListArgs} {key : Str} {x : Output} (h : PutsOut args key x) :
    Output.key x = (collapse args.pre args.delimiter key).getD key := by
  cases x with
  | inl e => rw [h.2, ← h.1]; rfl
  | inr p =>
    have hp : collapse args.pre args.delimiter key = some p := h
    rw [hp]
    rfl

/-- A group is the beginning of its key. -/
theorem group_isPrefix {pre key p : Str} {delimiter : Option Str} (hpre : pre <+: key)
    (h : collapse pre delimiter key = some p) : p <+: key := by
  obtain ⟨rest, rfl⟩ := hpre
  cases delimiter with
  | none => simp [collapse] at h
  | some delim =>
    obtain ⟨a, b, hkey, rfl, -⟩ := collapse_eq_some_iff.mp h
    exact ⟨b, by rw [hkey]; simp⟩

/-- The output of a file comes at or before it. -/
theorem outputKey_le_key {args : ListArgs} {q : List Str} (hpre : args.pre <+: joinSlash q) :
    (collapse args.pre args.delimiter (joinSlash q)).getD (joinSlash q) ≤ joinSlash q := by
  cases h : collapse args.pre args.delimiter (joinSlash q) with
  | none => exact le_refl _
  | some p => exact le_of_isPrefix (group_isPrefix hpre h)

/-- HDFS named the entry in a listing. -/
def NamedEntry (m : PathMapper) (log : List Event) (x : ListEntry ⊕ Str) : Prop :=
  ∃ path statuses, Listed log path (.ok statuses) ∧ ∃ s ∈ statuses, childEntry m s = some x

/-- HDFS named the object, or something that the group is the group of. -/
def NamedOutput (m : PathMapper) (log : List Event) (args : ListArgs) : Output → Prop
  | .inl e => NamedEntry m log (.inl e) ∧ args.pre <+: e.key ∧
    collapse args.pre args.delimiter e.key = none
  | .inr p => ∃ x, NamedEntry m log x ∧ args.pre <+: outputKey x ∧
    collapse args.pre args.delimiter (outputKey x) = some p

/-- The page is cut from these outputs: they come in strict order after the marker, HDFS named each
of them, and the output of a file that persists is among them or beyond the page. -/
structure Cuts (m : PathMapper) (log : List Event) (args : ListArgs) (page : Page)
    (outputs : List Output) : Prop where
  page_eq : page = Page.cut outputs args.maxKeys
  ascending : Ascending outputs
  after : ∀ x ∈ outputs, ∀ marker, args.startAfter = some marker → marker < Output.key x
  named : ∀ x ∈ outputs, NamedOutput m log args x
  covers : ∀ q, SoughtFile args q → Persists log (m.rootSegments ++ q) →
    (∃ x ∈ outputs, PutsOut args (joinSlash q) x) ∨ args.maxKeys < outputs.length ∧
      ∀ x ∈ outputs, Output.key x < (collapse args.pre args.delimiter (joinSlash q)).getD (joinSlash q)

/-- The output of a listed file is an output of the listing. -/
theorem exists_putsOut {files : List ListEntry} (dirs : List Str) {args : ListArgs} {e : ListEntry}
    (he : e ∈ files) (hpre : args.pre <+: e.key) (hdelim : args.delimiter ≠ some []) :
    ∃ x, PutsOut args e.key x ∧ IsOutput files dirs args.pre args.delimiter x := by
  obtain ⟨rest, hkey⟩ := hpre
  cases hgroup : collapse args.pre args.delimiter e.key with
  | none =>
    refine ⟨.inl e, ⟨rfl, hgroup⟩, he, ⟨rest, hkey⟩, fun delim hd _ => ?_⟩
    rw [hd, ← hkey] at hgroup
    rw [← hkey, List.drop_left]
    exact collapse_eq_none_iff.mp hgroup
  | some p =>
    refine ⟨.inr p, hgroup, .inl ⟨e, he, ?_⟩⟩
    cases hd : args.delimiter with
    | none => simp [hd, collapse] at hgroup
    | some delim =>
      refine ⟨delim, rfl, fun hnil => hdelim (by rw [hd, hnil]), ?_⟩
      rw [hd, ← hkey] at hgroup
      rw [← hkey]
      exact collapse_eq_some_iff.mp hgroup

/-- What a listing puts out was named, if its entries were. -/
theorem named_of_isOutput {m : PathMapper} {log : List Event} {files : List ListEntry}
    {dirs : List Str} {args : ListArgs} {y : Output} (hdelim : args.delimiter ≠ some [])
    (hfiles : ∀ e ∈ files, NamedEntry m log (.inl e)) (hdirs : ∀ d ∈ dirs, NamedEntry m log (.inr d))
    (h : IsOutput files dirs args.pre args.delimiter y) : NamedOutput m log args y := by
  -- an entry has a group where its key goes on with the prefix
  have hgroup : ∀ {x : ListEntry ⊕ Str} {delim p : Str}, NamedEntry m log x →
      args.delimiter = some delim → GroupsAt args.pre delim (outputKey x) p →
      NamedOutput m log args (.inr p) := by
    intro x delim p hx hd hp
    obtain ⟨a, b, hkey, -⟩ := id hp
    rw [List.append_assoc] at hkey
    refine ⟨x, hx, ⟨_, hkey.symm⟩, ?_⟩
    rw [hkey] at hp
    rw [hkey, hd]
    exact collapse_eq_some_iff.mpr hp
  cases y with
  | inl e =>
    obtain ⟨he, ⟨rest, hkey⟩, hrest⟩ := h
    refine ⟨hfiles e he, ⟨rest, hkey⟩, ?_⟩
    cases hd : args.delimiter with
    | none => rfl
    | some delim =>
      have hfind := hrest delim hd fun hnil => hdelim (hd.trans (congrArg some hnil))
      rw [← hkey, List.drop_left] at hfind
      rw [← hkey]
      exact collapse_eq_none_iff.mpr hfind
  | inr p =>
    rcases h with ⟨e, he, delim, hd, -, hp⟩ | ⟨hd, d, hdir, -, hp⟩
    · exact hgroup (hfiles e he) hd hp
    · exact hgroup (hdirs d hdir) hd hp

/-! ## The merged subtree -/

section Merged

variable {m : PathMapper} {log : List Event} {told : List Exchange} {args : ListArgs} {qs : List Str}

/-- A fresh engine for these arguments starts where their prefix asks for. -/
theorem starts_new (hplain : ∀ s ∈ qs, Plain s)
    (hstart : m.listStart args.pre = some (absPath (m.rootSegments ++ qs))) :
    (SortedListing.new (absPath (m.rootSegments ++ qs)) args.pre args.startAfter m).Starts qs :=
  ⟨SortedListing.isFresh_new _ _ _ _, hplain, rfl, hstart⟩

/-- A start lies at or below the root. -/
theorem exists_start {start : Str} (h : m.listStart args.pre = some start) :
    ∃ qs, (∀ s ∈ qs, Plain s) ∧ start = absPath (m.rootSegments ++ qs) := by
  obtain ⟨segs, hplain, rfl, qs, rfl⟩ := m.listStart_eq_some h
  exact ⟨qs, fun s hs => hplain s (List.mem_append_right _ hs), rfl⟩

/-- What a reply named, HDFS named. -/
theorem namedEntry_of_names {x : ListEntry ⊕ Str} (h : Names m told x)
    (hrelays : ∀ e ∈ told, Relays m log e) : NamedEntry m log x := by
  obtain ⟨ks, listing, hlists, hx⟩ := h
  obtain ⟨statuses, hlisted, rfl⟩ := hlists.statuses fun e he _ _ => hrelays e he
  exact ⟨_, statuses, hlisted, mem_entries.mp hx⟩

/-- A sought file is one that the engine lets through. -/
theorem SoughtFile.sought {q : List Str} (h : SoughtFile args q) {start : Str} :
    (SortedListing.new start args.pre args.startAfter m).Sought q :=
  ⟨h.plain, h.ne_nil, h.pre, fun marker hmarker =>
    lt_of_lt_of_le (h.after marker hmarker) (outputKey_le_key h.pre)⟩

/-- The entries that the engine collects for a page, and what they are worth. -/
theorem collected_all {fuel : ℕ} {limit : Option ℕ} {entries : List ListEntry} {truncated : Bool}
    (hplain : ∀ s ∈ qs, Plain s)
    (hstart : m.listStart args.pre = some (absPath (m.rootSegments ++ qs))) (hlimit : limit ≠ some 0)
    (hruns : ((SortedListing.new (absPath (m.rootSegments ++ qs)) args.pre args.startAfter
      m).collectPage fuel limit).Runs told (.ok (entries, truncated)))
    (hrelays : ∀ e ∈ told, Relays m log e) (hsettled : Settled log) :
    ∃ all : List ListEntry, all.Pairwise (fun a b => a.key < b.key) ∧
      (∀ e ∈ all, args.pre <+: e.key ∧ (∀ marker, args.startAfter = some marker → marker < e.key) ∧
        NamedEntry m log (.inl e)) ∧
      (∀ q, SoughtFile args q → Persists log (m.rootSegments ++ q) →
        (∃ e ∈ all, e.key = joinSlash q) ∨ truncated = true ∧ ∀ e ∈ all, e.key < joinSlash q) ∧
      (truncated = false → entries = all) ∧
      (truncated = true → limit = some entries.length ∧ ∃ last, all = entries ++ [last]) := by
  have hstarts := starts_new hplain hstart
  obtain ⟨all, hsorted, hall, hcovers, hended, hmore⟩ :=
    (SortedListing.collectPage_reached hstarts.toIsFresh hlimit hruns).exists_all hstarts
      (orderly_of_settled hsettled fun e he _ _ => hrelays e he)
  refine ⟨all, hsorted, fun e he => ⟨(hall e he).1.1, fun marker hmarker => ?_, ?_⟩,
    fun q hq hpersists => ?_, hended, hmore⟩
  · exact not_le.mp ((hall e he).1.2 marker hmarker)
  · exact namedEntry_of_names (hall e he).2 hrelays
  · exact hcovers q hq.sought (lasting_of_persists hq.plain hpersists hrelays)

/-- The page of a listing without a delimiter. -/
def flatPage (entries : List ListEntry) (truncated : Bool) : Page where
  contents := entries
  commonPrefixes := []
  isTruncated := truncated
  nextToken := if truncated then entries.getLast?.map ListEntry.key else none

/-- Without a delimiter the page is cut from the files themselves. -/
theorem cuts_flat {fuel : ℕ} {entries : List ListEntry} {truncated : Bool}
    (hplain : ∀ s ∈ qs, Plain s)
    (hstart : m.listStart args.pre = some (absPath (m.rootSegments ++ qs)))
    (hmax : args.maxKeys ≠ 0) (hdelim : args.delimiter = none)
    (hruns : ((SortedListing.new (absPath (m.rootSegments ++ qs)) args.pre args.startAfter
      m).collectPage fuel (some args.maxKeys)).Runs told (.ok (entries, truncated)))
    (hbound : entries.length ≤ args.maxKeys)
    (hrelays : ∀ e ∈ told, Relays m log e) (hsettled : Settled log) :
    ∃ outputs, Cuts m log args (flatPage entries truncated) outputs := by
  obtain ⟨all, hsorted, hall, hcovers, hended, hmore⟩ :=
    collected_all hplain hstart (by simpa using hmax) hruns hrelays hsettled
  have hcollapse : ∀ key, collapse args.pre args.delimiter key = none := fun key => by
    rw [hdelim]
    rfl
  refine ⟨all.map Sum.inl, ?_, List.pairwise_map.mpr hsorted, ?_, ?_, fun q hq hpersists => ?_⟩
  · rw [Page.cut_files, flatPage]
    cases truncated with
    | false =>
      obtain rfl := hended rfl
      simp [List.take_of_length_le hbound, Nat.not_lt.mpr hbound]
    | true =>
      obtain ⟨hfull, last, rfl⟩ := hmore rfl
      obtain hfull : args.maxKeys = entries.length := Option.some.inj hfull
      simp [hfull]
  · intro x hx marker hmarker
    obtain ⟨e, he, rfl⟩ := List.mem_map.mp hx
    exact (hall e he).2.1 marker hmarker
  · intro x hx
    obtain ⟨e, he, rfl⟩ := List.mem_map.mp hx
    exact ⟨(hall e he).2.2, (hall e he).1, hcollapse e.key⟩
  · rw [hcollapse, Option.getD_none]
    rcases hcovers q hq hpersists with ⟨e, he, hkey⟩ | ⟨htrunc, hbelow⟩
    · exact .inl ⟨.inl e, List.mem_map_of_mem he, hkey, hcollapse _⟩
    · obtain ⟨hfull, last, rfl⟩ := hmore htrunc
      refine .inr ⟨?_, fun x hx => ?_⟩
      · rw [Option.some.inj hfull]
        simp
      · obtain ⟨e, he, rfl⟩ := List.mem_map.mp hx
        exact hbelow e he

/-- For any other delimiter the page is cut from the files of the whole subtree and their groups. -/
theorem cuts_delimiter {fuel : ℕ} {entries : List ListEntry} {truncated : Bool}
    (hplain : ∀ s ∈ qs, Plain s)
    (hstart : m.listStart args.pre = some (absPath (m.rootSegments ++ qs)))
    (hmax : args.maxKeys ≠ 0) (hdelim : args.delimiter ≠ some [])
    (hruns : ((SortedListing.new (absPath (m.rootSegments ++ qs)) args.pre args.startAfter
      m).collectPage fuel none).Runs told (.ok (entries, truncated)))
    (hrelays : ∀ e ∈ told, Relays m log e) (hsettled : Settled log) :
    ∃ outputs, Cuts m log args
      (paginate entries [] args.pre args.delimiter args.startAfter args.maxKeys) outputs := by
  obtain ⟨all, hsorted, hall, hcovers, hended, hmore⟩ :=
    collected_all hplain hstart (by simp) hruns hrelays hsettled
  obtain rfl : truncated = false := by
    by_contra htrunc
    obtain ⟨hfull, -⟩ := hmore (Bool.eq_true_of_not_eq_false htrunc)
    contradiction
  obtain rfl := hended rfl
  have hkeys : (entries.map ListEntry.key).Nodup := List.pairwise_map.mpr (hsorted.imp ne_of_lt)
  obtain ⟨outputs, hasc, hmem, hpage⟩ :=
    exists_cut_paginate hkeys [] args.pre args.delimiter args.startAfter hmax
  refine ⟨outputs, hpage, hasc, fun x hx => ((hmem x).mp hx).2, fun x hx => ?_,
    fun q hq hpersists => .inl ?_⟩
  · exact named_of_isOutput hdelim (fun e he => (hall e he).2.2) (by simp) ((hmem x).mp hx).1
  · obtain ⟨e, he, hkey⟩ := (hcovers q hq hpersists).resolve_right (by simp)
    obtain ⟨x, hputs, hout⟩ := exists_putsOut [] he (hkey ▸ hq.pre) hdelim
    rw [hkey] at hputs
    exact ⟨x, (hmem x).mpr ⟨hout, fun marker hmarker => hputs.key_eq ▸ hq.after marker hmarker⟩, hputs⟩

end Merged

/-! ## One directory -/

section Slash

variable {m : PathMapper} {log : List Event} {args : ListArgs} {qs : List Str}
  {listing : DirListing}

/-- The children of the start are on the level of the prefix. -/
theorem onLevel_of_start {pre : Str} {name : Str} (hplain : ∀ s ∈ qs, Plain s)
    (hstart : m.listStart pre = some (absPath (m.rootSegments ++ qs))) (hname : Plain name) :
    OnLevel pre (joinSlash (qs ++ [name])) := by
  intro hpre
  have hroot : ∀ ks : List Str, (∀ s ∈ ks, Plain s) → ∀ s ∈ m.rootSegments ++ ks, Plain s :=
    fun ks hks s hs => (List.mem_append.mp hs).elim (m.rootSegments_plain s) (hks s)
  have hchild : ∀ s ∈ qs ++ [name], Plain s := fun s hs =>
    (List.mem_append.mp hs).elim (hplain s) fun hs => List.mem_singleton.mp hs ▸ hname
  have hkey : joinSlash (qs ++ [name]) = dirPrefix qs ++ name := by
    rw [joinSlash_append_eq qs (by simp), joinSlash_singleton]
  rcases List.prefix_concat_iff.mp hpre with heq | hpre
  · -- the prefix would name the child itself, where the listing would start
    exfalso
    have hdir : pre = dirPrefix (qs ++ [name]) ++ [] := by
      rw [List.append_nil, dirPrefix_eq (by simp), heq]
    have hslash : slash ∈ dirPrefix (qs ++ [name]) ++ [] := by simp [dirPrefix_eq]
    have hguard : dirPrefix (qs ++ [name]) ++ [] ≠ dot ∧ dirPrefix (qs ++ [name]) ++ [] ≠ dotdot := by
      constructor <;> intro hcon <;> rw [hcon] at hslash <;> exact absurd hslash (by decide)
    rw [hdir, m.listStart_dirPrefix hchild (by simp) hguard] at hstart
    have hsame := absPath_injective (hroot _ hchild) (hroot _ hplain) (Option.some.inj hstart)
    simpa using congrArg List.length hsame
  · obtain ⟨qs', piece, rest, hqs, hsegs, -, hpiece, rfl⟩ := PathMapper.exists_level (hroot _ hplain)
      hstart (addressed_root hchild (by simp)) (by rwa [m.keyOf_append])
    obtain rfl := List.append_cancel_left hqs
    rw [hkey, List.prefix_append_right_inj] at hpre
    obtain ⟨s, hs⟩ := hpre
    refine ⟨s, by rw [hkey, ← hs, List.append_assoc], fun hmem => hname.slash_not_mem ?_⟩
    rw [← hs]
    exact List.mem_append_right _ hmem

/-- The listing of a directory has its files and its directories in strict order. -/
theorem Genuine.sorted (h : Genuine qs listing) :
    listing.files.Pairwise (fun a b => a.key < b.key) ∧
      listing.dirs.Pairwise fun a b => dirOutput a < dirOutput b := by
  have hkeys := h.nodup
  rw [DirListing.entries, List.map_append, List.nodup_append] at hkeys
  obtain ⟨hfiles, hdirs, -⟩ := hkeys
  constructor
  · have hne := List.pairwise_map.mp (List.pairwise_map.mp hfiles)
    exact (listing.files_sorted.and hne).imp fun h => lt_of_le_of_ne h.1 h.2
  · have hne := List.pairwise_map.mp (List.pairwise_map.mp hdirs)
    exact (listing.dirs_sorted.and hne).imp fun h =>
      lt_of_le_of_ne h.1 fun heq => h.2 (List.append_cancel_right heq)

theorem mem_files_iff {e : ListEntry} : e ∈ listing.files ↔ .inl e ∈ listing.entries := by
  simp [DirListing.entries, DirListing.side]

theorem mem_dirs_iff {d : Str} : d ∈ listing.dirs ↔ .inr d ∈ listing.entries := by
  simp [DirListing.entries, DirListing.side]

/-- The entry on the way to a file is put out for the delimiter `/`. -/
theorem leads_putsOut {q : List Str} {x : ListEntry ⊕ Str} (hx : x ∈ listing.entries)
    (hleads : SortedListing.Leads qs q x) (hq : args.pre <+: joinSlash q)
    (hpre : args.pre <+: entryKey x) (hlevel : OnLevel args.pre (entryKey x))
    (hslash : args.delimiter = some [slash]) :
    ∃ y, PutsOut args (joinSlash q) y ∧
      IsOutput listing.files listing.dirs args.pre args.delimiter y := by
  cases x with
  | inl e =>
    have hkey : e.key = joinSlash q := by
      rw [← hleads.file_iff.mp rfl, joinSlash_entrySegs]
      rfl
    rw [← hkey] at hq ⊢
    exact exists_putsOut listing.dirs (mem_files_iff.mpr hx) hq (by simp [hslash])
  | inr d =>
    have hne : entrySegs (.inr d) ≠ q := fun heq => by simpa using hleads.file_iff.mpr heq
    obtain ⟨b, hb⟩ := dirOutput_joinSlash_prefix (entrySegs_ne_nil _) hleads.above hne
    rw [joinSlash_entrySegs, entryKey_inr] at hb
    rw [entryKey_inr] at hpre hlevel
    obtain ⟨s, rfl, hs⟩ := hlevel (hpre.trans (List.prefix_append _ _))
    have hkey : joinSlash q = args.pre ++ (s ++ slash :: b) := by
      rw [← hb, dirOutput]
      simp
    refine ⟨.inr (dirOutput (args.pre ++ s)), ?_, .inr ⟨hslash, _, mem_dirs_iff.mpr hx, hpre, ?_⟩⟩
    · rw [PutsOut, hslash, hkey]
      exact collapse_eq_some_iff.mpr ((groupsAt_piece hs).mpr rfl)
    · exact (hlevel.groupsAt_iff hpre).mpr rfl

/-- A sought file makes the listing start. -/
theorem SoughtFile.starts {q : List Str} (h : SoughtFile args q) : m.listStart args.pre ≠ none := by
  obtain ⟨d, -, hd, -⟩ := m.listStart_covers h.guard ⟨q, h.ne_nil, h.plain, rfl⟩ h.pre
  rw [hd]
  exact Option.some_ne_none d

/-- A page without items, when no file is sought or none of those sought persists. -/
theorem cuts_nil {page : Page}
    (hpage : page = Page.cut (retain Output.key args.startAfter []) args.maxKeys)
    (hnone : ∀ q, SoughtFile args q → ¬ Persists log (m.rootSegments ++ q)) :
    Cuts m log args page [] where
  page_eq := by
    have hnil : retain Output.key args.startAfter ([] : List Output) = [] := by
      cases args.startAfter <;> rfl
    rw [hpage, hnil]
  ascending := .nil
  after := by simp
  named := by simp
  covers q hq hpersists := absurd hpersists (hnone q hq)

/-- On the way to a sought file that persists, what HDFS answers about the start names an entry. -/
theorem exists_leads {q : List Str} {r : Except HdfsError DirListing} (hplain : ∀ s ∈ qs, Plain s)
    (hstart : m.listStart args.pre = some (absPath (m.rootSegments ++ qs)))
    (hrelays : Relays m log ⟨absPath (m.rootSegments ++ qs), r⟩) (hq : SoughtFile args q)
    (hpersists : Persists log (m.rootSegments ++ q)) :
    ∃ listing, r = .ok listing ∧ ∃ x ∈ listing.entries, SortedListing.Leads qs q x ∧
      args.pre <+: entryKey x := by
  obtain ⟨habove, hne, hbetween⟩ := hq.sought.above (starts_new hplain hstart)
  have htold : ∀ e ∈ [(⟨absPath (m.rootSegments ++ qs), r⟩ : Exchange)], Relays m log e :=
    fun e he => List.mem_singleton.mp he ▸ hrelays
  obtain ⟨listing, hr, x, hx, hleads⟩ := SortedListing.leads_next (m := m)
    (lasting_of_persists hq.plain hpersists htold) hq.plain habove hne (le_refl qs.length)
    (List.mem_singleton_self _)
  have hpre := hbetween _ (List.prefix_of_prefix_length_le habove hleads.above hleads.below.le)
    (fun heq => (heq ▸ hleads.below).ne rfl) hleads.above
  rw [joinSlash_entrySegs] at hpre
  exact ⟨listing, hr, x, hx, hleads, hpre⟩

/-- A file listed as itself has the segments of the start, -/
theorem FileItself.segs_eq (h : FileItself qs listing) (hplain : ∀ s ∈ qs, Plain s)
    {x : ListEntry ⊕ Str} (hx : x ∈ listing.entries) : entrySegs x = qs := by
  rcases h with hnil | ⟨e, hone, hkey, hne⟩
  · simp [hnil] at hx
  · rw [hone, List.mem_singleton] at hx
    exact entrySegs_eq hplain hne (hx ▸ hkey)

/-- so it does not match the prefix. -/
theorem FileItself.page (h : FileItself qs listing) (hplain : ∀ s ∈ qs, Plain s)
    (hstart : m.listStart args.pre = some (absPath (m.rootSegments ++ qs))) (hmax : args.maxKeys ≠ 0) :
    paginateSlash listing.files listing.dirs args.pre args.startAfter args.maxKeys =
      Page.cut (retain Output.key args.startAfter []) args.maxKeys := by
  have hfiles : listing.files = listing.entries.filterMap Sum.getLeft? := by
    simp [DirListing.entries, DirListing.side, Function.comp_def]
  have hdirs : listing.dirs = listing.entries.filterMap Sum.getRight? := by
    simp [DirListing.entries, DirListing.side, Function.comp_def]
  rw [hfiles, hdirs]
  rcases h with hnil | ⟨e, hone, hkey, hne⟩
  · rw [hnil]
    exact ReadableTree.paginateSlash_empty hmax
  · rw [hone]
    apply ReadableTree.paginateSlash_unmatched _ hmax
    intro hpre
    have haddr : m.Addressed (m.rootSegments ++ qs) := addressed_root hplain hne
    rw [hkey, ← m.keyOf_append] at hpre
    exact (PathMapper.listStart_above haddr.plain hstart haddr hpre).2.1 rfl

/-- For the delimiter `/` the page is cut from the listing of the start. -/
theorem cuts_slash (hplain : ∀ s ∈ qs, Plain s)
    (hstart : m.listStart args.pre = some (absPath (m.rootSegments ++ qs)))
    (hmax : args.maxKeys ≠ 0) (hslash : args.delimiter = some [slash])
    (hrelays : Relays m log ⟨absPath (m.rootSegments ++ qs), .ok listing⟩) (hsettled : Settled log) :
    ∃ outputs, Cuts m log args
      (paginateSlash listing.files listing.dirs args.pre args.startAfter args.maxKeys) outputs := by
  have htold : ∀ e ∈ [(⟨absPath (m.rootSegments ++ qs), .ok listing⟩ : Exchange)], Relays m log e :=
    fun e he => List.mem_singleton.mp he ▸ hrelays
  have hlists : Lists m [(⟨absPath (m.rootSegments ++ qs), .ok listing⟩ : Exchange)] qs listing :=
    ⟨hplain, List.mem_singleton_self _⟩
  have hnamed : ∀ x ∈ listing.entries, NamedEntry m log x := fun x hx =>
    namedEntry_of_names ⟨qs, listing, hlists, hx⟩ htold
  rcases orderly_of_settled hsettled (fun e he _ _ => htold e he) qs listing hlists with hgen | ⟨hfile, -⟩
  · obtain ⟨hfiles, hdirs⟩ := hgen.sorted
    have hlevel : ∀ x ∈ listing.entries, OnLevel args.pre (entryKey x) := by
      intro x hx
      obtain ⟨name, hname, hkey⟩ := hgen.child x hx
      exact hkey ▸ onLevel_of_start hplain hstart hname
    have hflevel : ∀ f ∈ listing.files, ∀ rest, f.key = args.pre ++ rest → slash ∉ rest := by
      intro f hf rest hkey
      obtain ⟨rest', heq, hrest⟩ := hlevel _ (mem_files_iff.mp hf)
        ⟨rest ++ [slash], by simp [entryKey_inl, hkey, dirOutput]⟩
      rw [entryKey_inl, hkey] at heq
      exact List.append_cancel_left heq ▸ hrest
    rw [paginateSlash_eq hfiles hdirs hflevel fun d hd => hlevel _ (mem_dirs_iff.mp hd), ← hslash]
    obtain ⟨outputs, hasc, hmem, hpage⟩ := exists_cut_paginate
      (List.pairwise_map.mpr (hfiles.imp ne_of_lt)) listing.dirs args.pre args.delimiter
      args.startAfter hmax
    refine ⟨outputs, hpage, hasc, fun x hx => ((hmem x).mp hx).2, fun x hx => ?_,
      fun q hq hpersists => .inl ?_⟩
    · exact named_of_isOutput (by simp [hslash]) (fun e he => hnamed _ (mem_files_iff.mp he))
        (fun d hd => hnamed _ (mem_dirs_iff.mp hd)) ((hmem x).mp hx).1
    · obtain ⟨found, hr, x, hx, hleads, hpre⟩ :=
        exists_leads hplain hstart hrelays hq hpersists
      obtain rfl := Except.ok.inj hr
      obtain ⟨y, hputs, hout⟩ := leads_putsOut hx hleads hq.pre hpre (hlevel x hx) hslash
      exact ⟨y, (hmem y).mpr ⟨hout, fun marker hmarker => hputs.key_eq ▸ hq.after marker hmarker⟩,
        hputs⟩
  · refine ⟨[], cuts_nil (hfile.page hplain hstart hmax) fun q hq hpersists => ?_⟩
    obtain ⟨found, hr, x, hx, hleads, -⟩ := exists_leads hplain hstart hrelays hq hpersists
    obtain rfl := Except.ok.inj hr
    exact (hfile.segs_eq hplain hx ▸ hleads.below).ne rfl

/-- What HDFS does not find has no items. -/
theorem cuts_missing {err : HdfsError} (hplain : ∀ s ∈ qs, Plain s)
    (hstart : m.listStart args.pre = some (absPath (m.rootSegments ++ qs))) (hmax : args.maxKeys ≠ 0)
    (hrelays : Relays m log ⟨absPath (m.rootSegments ++ qs), .error err⟩) :
    Cuts m log args (paginateSlash [] [] args.pre args.startAfter args.maxKeys) [] := by
  apply cuts_nil (ReadableTree.paginateSlash_empty hmax)
  intro q hq hpersists
  obtain ⟨found, hr, -⟩ := exists_leads hplain hstart hrelays hq hpersists
  contradiction

/-- Where no listing starts no file is sought. -/
theorem cuts_unstarted {page : Page} (hstart : m.listStart args.pre = none)
    (hpage : page = Page.cut (retain Output.key args.startAfter []) args.maxKeys) :
    Cuts m log args page [] :=
  cuts_nil hpage fun _ hq _ => hq.starts hstart

end Slash

end HdfsS3Gateway
