import HdfsS3Gateway.S3.ChangingRequests
import HdfsS3Gateway.S3.Tiling

/-!
# Pages read while HDFS changes

A client reads a listing page by page while other requests run, caches fill and expire, and HDFS
changes between any two replies. The pages are no snapshot, but they never repeat or step back, they
name only what HDFS named, and a file that persists is on exactly one of them.
-/

namespace HdfsS3Gateway

open Interaction Lexicographic

/-! ## Strings -/

/-- The paths that HDFS reports are strings. -/
def StringPaths (log : List Event) : Prop :=
  ∀ path statuses, Listed log path (.ok statuses) → ∀ s ∈ statuses, Utf8.Valid s.path

/-- The parts of a valid key are valid. -/
theorem valid_of_joinSlash {segs : List Str} (h : Utf8.Valid (joinSlash segs)) :
    ∀ s ∈ segs, Utf8.Valid s := by
  induction segs with
  | nil => simp
  | cons s segs ih =>
    by_cases hnil : segs = []
    · rw [hnil, joinSlash_singleton] at h
      simpa [hnil] using h
    · rw [joinSlash_cons _ hnil, ← List.singleton_append] at h
      have hs : Utf8.Valid s := h.before valid_slash (List.cons_ne_nil _ _)
      intro t ht
      rcases List.mem_cons.mp ht with rfl | ht
      · exact hs
      · exact ih (valid_slash.right (hs.right h)) t ht

/-- Normalizing keeps some of the segments. -/
theorem mem_of_normalizeLoop {absolute : Bool} {parts segs out : List Str}
    (h : normalizeLoop absolute parts segs = some out) : ∀ s ∈ out, s ∈ parts ∨ s ∈ segs := by
  induction segs generalizing parts with
  | nil =>
    obtain rfl := Option.some.inj h
    exact fun s hs => .inl hs
  | cons segment rest ih =>
    rw [normalizeLoop] at h
    intro s hs
    split_ifs at h with hskip hdd hpop
    all_goals rcases ih h s hs with hparts | hrest
    all_goals grind [List.mem_of_mem_dropLast]

/-- The key of a valid path is valid. -/
theorem valid_key {m : PathMapper} {p k : Str} (h : m.hdfsPathToKey p = some k)
    (hp : Utf8.Valid p) : Utf8.Valid k := by
  obtain ⟨habs, segs, hplain, hnorm, -, rfl⟩ := m.hdfsPathToKey_eq_some h
  obtain ⟨p, rfl⟩ := (startsWith_iff _ _).mp habs
  rw [List.singleton_append, normalizeAbs_slash_cons, Option.map_eq_some_iff] at hnorm
  obtain ⟨out, hloop, heq⟩ := hnorm
  have hout := normalizeLoop_plain (fun _ hs => by contradiction)
    (fun s hs => slash_not_mem_of_mem_splitSlash hs) hloop
  obtain rfl := absPath_injective hout hplain heq
  have hsegs : ∀ s ∈ splitSlash p, Utf8.Valid s :=
    valid_of_joinSlash ((joinSlash_splitSlash p).symm ▸ valid_slash.right hp)
  apply valid_joinSlash
  intro s hs
  exact hsegs s ((mem_of_normalizeLoop hloop s (List.mem_of_mem_drop hs)).resolve_left
    List.not_mem_nil)

/-- A named entry has a valid key. -/
theorem NamedEntry.valid {m : PathMapper} {log : List Event} {x : ListEntry ⊕ Str}
    (h : NamedEntry m log x) (hstrings : StringPaths log) : Utf8.Valid (entryKey x) := by
  obtain ⟨path, statuses, hlisted, s, hs, hentry⟩ := h
  have hpath := hstrings path statuses hlisted s hs
  unfold childEntry at hentry
  cases hkey : m.hdfsPathToKey s.path with
  | none => simp [hkey] at hentry
  | some k =>
    have hk := valid_key hkey hpath
    simp only [hkey] at hentry
    split_ifs at hentry <;> obtain rfl := Option.some.inj hentry <;> exact hk

/-- So have the outputs of a listing. -/
theorem NamedOutput.valid {m : PathMapper} {log : List Event} {args : ListArgs} {y : Output}
    (h : NamedOutput m log args y) (hstrings : StringPaths log) (hpre : Utf8.Valid args.pre)
    (hdelim : ∀ d, args.delimiter = some d → Utf8.Valid d ∧ d ≠ []) :
    Utf8.Valid (Output.key y) := by
  cases y with
  | inl e => exact h.1.valid hstrings
  | inr p =>
    obtain ⟨x, hx, ⟨rest, hkey⟩, hgroup⟩ := h
    have hvalid : Utf8.Valid (outputKey x) := by
      have hentry := hx.valid hstrings
      cases x with
      | inl e => exact hentry
      | inr d => exact hentry.append valid_slash
    cases hd : args.delimiter with
    | none => simp [hd, collapse] at hgroup
    | some delim =>
      rw [hd, ← hkey] at hgroup
      rw [← hkey] at hvalid
      exact (collapse_eq_some_iff.mp hgroup).valid hvalid hpre (hdelim delim hd).1 (hdelim delim hd).2

/-! ## Items -/

/-- What holds of the items read from a marker on. -/
structure ReadItems (m : PathMapper) (log : List Event) (args : ListArgs) (items : List Item) :
    Prop where
  sorted : items.Pairwise fun x y => Item.key x < Item.key y
  after : ∀ x ∈ items, ∀ marker, args.startAfter = some marker → marker < Item.key x
  named : ∀ x ∈ items, ∃ y : Output, y.item = x ∧ NamedOutput m log args y
  covers : ∀ q, SoughtFile args q → Persists log (m.rootSegments ++ q) →
    ∃ x ∈ items, ∃ y : Output, y.item = x ∧ PutsOut args (joinSlash q) y

/-- A page that is not truncated is the rest of the listing. -/
theorem Cuts.readItems {m : PathMapper} {log : List Event} {args : ListArgs} {page : Page}
    {outputs : List Output} (h : Cuts m log args page outputs) (hle : outputs.length ≤ args.maxKeys) :
    ReadItems m log args (outputs.map Output.item) := by
  refine ⟨?_, fun x hx => ?_, fun x hx => ?_, fun q hq hpersists => ?_⟩
  · rw [List.pairwise_map]
    simp only [Item.key_item]
    exact h.ascending
  · obtain ⟨y, hy, rfl⟩ := List.mem_map.mp hx
    rw [Item.key_item]
    exact h.after y hy
  · obtain ⟨y, hy, rfl⟩ := List.mem_map.mp hx
    exact ⟨y, rfl, h.named y hy⟩
  · obtain ⟨y, hy, hputs⟩ := (h.covers q hq hpersists).resolve_right fun hmore =>
      not_lt.mpr hle hmore.1
    exact ⟨_, List.mem_map_of_mem hy, y, rfl, hputs⟩

/-- A page, and then what is read from its last key on. -/
theorem ReadItems.append {m : PathMapper} {log : List Event} {args args' : ListArgs} {page : Page}
    {outputs : List Output} {items : List Item} {last : Output} {n : ℕ}
    (hrest : ReadItems m log args' items) (h : Cuts m log args page outputs)
    (hlast : outputs[n]? = some last) (hpre : args'.pre = args.pre)
    (hdelim : args'.delimiter = args.delimiter)
    (hmarker : args'.startAfter = some (Output.key last)) :
    ReadItems m log args ((outputs.take (n + 1)).map Output.item ++ items) := by
  have htake : outputs.take (n + 1) = outputs.take n ++ [last] := by
    rw [List.take_add_one, hlast]
    rfl
  have hsame : ∀ key y, PutsOut args' key y ↔ PutsOut args key y := by
    intro key y
    cases y <;> simp [PutsOut, hpre, hdelim]
  have hnamed : ∀ y, NamedOutput m log args' y ↔ NamedOutput m log args y := by
    intro y
    cases y <;> simp [NamedOutput, hpre, hdelim]
  -- whatever is read later comes after the last key of the page
  have hle : ∀ y ∈ outputs.take (n + 1), Output.key y ≤ Output.key last := by
    intro y hy
    have hasc : Ascending (outputs.take (n + 1)) := h.ascending.sublist (List.take_sublist _ _)
    rw [htake] at hy hasc
    rcases List.mem_append.mp hy with hy | hy
    · exact ((List.pairwise_append.mp hasc).2.2 y hy last (List.mem_singleton_self _)).le
    · rw [List.mem_singleton.mp hy]
  have hsorted : ((outputs.take (n + 1)).map Output.item).Pairwise
      fun x y => Item.key x < Item.key y := by
    rw [List.pairwise_map]
    simp only [Item.key_item]
    exact h.ascending.sublist (List.take_sublist _ _)
  refine ⟨?_, fun x hx marker hm => ?_, fun x hx => ?_, fun q hq hpersists => ?_⟩
  · refine List.pairwise_append.mpr ⟨hsorted, hrest.sorted, fun x hx z hz => ?_⟩
    obtain ⟨y, hy, rfl⟩ := List.mem_map.mp hx
    rw [Item.key_item]
    exact lt_of_le_of_lt (hle y hy) (hrest.after z hz _ hmarker)
  · rcases List.mem_append.mp hx with hx | hx
    · obtain ⟨y, hy, rfl⟩ := List.mem_map.mp hx
      rw [Item.key_item]
      exact h.after y (List.mem_of_mem_take hy) marker hm
    · exact lt_trans (h.after last (List.mem_of_getElem? hlast) marker hm)
        (hrest.after x hx _ hmarker)
  · rcases List.mem_append.mp hx with hx | hx
    · obtain ⟨y, hy, rfl⟩ := List.mem_map.mp hx
      exact ⟨y, rfl, h.named y (List.mem_of_mem_take hy)⟩
    · obtain ⟨y, hy, hyn⟩ := hrest.named x hx
      exact ⟨y, hy, (hnamed y).mp hyn⟩
  · by_cases hpage : ∃ y ∈ outputs.take (n + 1), PutsOut args (joinSlash q) y
    · obtain ⟨y, hy, hputs⟩ := hpage
      exact ⟨_, List.mem_append_left _ (List.mem_map_of_mem hy), y, rfl, hputs⟩
    · -- the output of the file comes after the page, so the rest is to put it out
      have hbeyond : Output.key last <
          (collapse args.pre args.delimiter (joinSlash q)).getD (joinSlash q) := by
        rcases h.covers q hq hpersists with ⟨y, hy, hputs⟩ | ⟨-, habove⟩
        · rw [← hputs.key_eq]
          have hasc := h.ascending
          rw [← List.take_append_drop (n + 1) outputs] at hy hasc
          rcases List.mem_append.mp hy with hy | hy
          · exact absurd ⟨y, hy, hputs⟩ hpage
          · exact (List.pairwise_append.mp hasc).2.2 last (htake ▸ by simp) y hy
        · exact habove last (List.mem_of_getElem? hlast)
      have hq' : SoughtFile args' q := by
        refine ⟨hq.plain, hq.ne_nil, hpre ▸ hq.guard, hpre ▸ hq.pre, fun marker hm => ?_⟩
        rw [hpre, hdelim]
        exact Option.some.inj (hm.symm.trans hmarker) ▸ hbeyond
      obtain ⟨x, hx, y, hy, hputs⟩ := hrest.covers q hq' hpersists
      exact ⟨x, List.mem_append_right _ hx, y, hy, (hsame _ y).mp hputs⟩

namespace HdfsGateway

variable {self : HdfsGateway} {H : Type} {hdfs : Hdfs H} {tid : ℕ}

/-! ## Pages -/

variable {now : ℕ} {start : H} {s : Pool Cmd Cmd.Resp (World self.crates H) S3Request Response}
  {input : ListObjectsV2Input} {fuel : ℕ}

/-- The arguments of a page of a listing. -/
def pageArgs (input : ListObjectsV2Input) (size : Option ℤ) (marker : Option Str) : ListArgs where
  pre := input.pre.getD []
  delimiter := input.delimiter.filter fun d => !d.isEmpty
  maxKeys := ReadableTree.pageSize size
  startAfter := marker

/-- The request for a page of a listing. -/
def pageInput (input : ListObjectsV2Input) (size : Option ℤ) (token : Option Str) :
    ListObjectsV2Input :=
  { input with maxKeys := size, continuationToken := token }

/-- The response to a request for a page: its items are the first outputs of some that the page is
cut from. If these are not all, it is truncated and its token names the last one. -/
theorem page_of_finished (hs : self.Reachable hdfs now start s) (hsettled : Settled s.world.log)
    {size : Option ℤ} {token marker : Option Str} {out : ListObjectsV2Output}
    (hfin : s.Finished tid (.listObjectsV2 (pageInput input size token) fuel)
      (.listObjectsV2 (.ok out)))
    (hsize : ∀ k, size = some k → 1 ≤ k)
    (hmarker : self.startAfterOf (pageInput input size token) = .ok marker) :
    ∃ outputs page n, Cuts self.mapper s.world.log (pageArgs input size marker) page outputs ∧
      ReadableTree.pageSize size = n + 1 ∧ out.items = (outputs.take (n + 1)).map Output.item ∧
      (outputs.length ≤ n + 1 → out.isTruncated = false) ∧
      (n + 1 < outputs.length → out.isTruncated = true ∧ ∃ last, outputs[n]? = some last ∧
        out.nextContinuationToken =
          some (encodeToken self.crates.urlSafeNoPad (Output.key last))) := by
  obtain ⟨args, page, hargs, rfl, hpaged⟩ := hs.post (self.dated hdfs)
    (fun _ req v res => self.PageFor v.log req res) (dated_init now start)
    (fun _ req w _ => serve_page req w) hfin
  have hpos := ReadableTree.pageSize_ne_zero hsize
  obtain ⟨n, hn⟩ := Nat.exists_eq_succ_of_ne_zero hpos
  have hmax : maxKeysOf size = .ok (ReadableTree.pageSize size) := by
    cases size with
    | none => rfl
    | some k =>
      have hk := hsize k rfl
      rw [maxKeysOf, if_neg (by omega)]
      rfl
  obtain rfl : args = pageArgs input size marker := by
    unfold listArgs at hargs
    split_ifs at hargs
    rw [hmarker] at hargs
    change (maxKeysOf size >>= _) = _ at hargs
    rw [hmax] at hargs
    exact (Except.ok.inj hargs).symm
  have hdelim : (pageArgs input size marker).delimiter ≠ some [] := by
    intro hnil
    obtain ⟨-, hne⟩ := Option.filter_eq_some_iff.mp hnil
    simp at hne
  obtain ⟨outputs, hcuts⟩ := hpaged hpos hdelim hsettled
  have hpage := hcuts.page_eq
  refine ⟨outputs, page, n, hcuts, hn, ?_, fun hle => ?_, fun hlt => ?_⟩
  all_goals subst hpage
  · rw [items_listOutput hcuts.ascending]
    exact congrArg (fun k => (outputs.take k).map Output.item) hn
  · exact (ReadableTree.listOutput_last self _ _ (hle.trans_eq hn.symm)).1
  · exact ReadableTree.listOutput_more self _ _ hn hlt

/-- The responses that a client reads in a run: each carries the token of the one before it, with any
size of the page, until one is not truncated. -/
inductive Reads (self : HdfsGateway)
    (s : Pool Cmd Cmd.Resp (World self.crates H) S3Request Response) (input : ListObjectsV2Input) :
    Option Str → List ListObjectsV2Output → Prop
  | last {token : Option Str} {tid fuel : ℕ} {size : Option ℤ} {out : ListObjectsV2Output}
      (hfin : s.Finished tid (.listObjectsV2 (pageInput input size token) fuel)
        (.listObjectsV2 (.ok out)))
      (hsize : ∀ k, size = some k → 1 ≤ k) (hend : out.isTruncated = false) :
      Reads self s input token [out]
  | more {token : Option Str} {tid fuel : ℕ} {size : Option ℤ} {out : ListObjectsV2Output}
      {outs : List ListObjectsV2Output}
      (hfin : s.Finished tid (.listObjectsV2 (pageInput input size token) fuel)
        (.listObjectsV2 (.ok out)))
      (hsize : ∀ k, size = some k → 1 ≤ k) (hmore : out.isTruncated = true)
      (hrest : Reads self s input out.nextContinuationToken outs) :
      Reads self s input token (out :: outs)

/-- What a client reads from a token on. -/
theorem Reads.items (hs : self.Reachable hdfs now start s) (hsettled : Settled s.world.log)
    (hstrings : StringPaths s.world.log) (hpre : Utf8.Valid (input.pre.getD []))
    (hdelim : ∀ d, input.delimiter = some d → Utf8.Valid d) {token marker : Option Str}
    {outs : List ListObjectsV2Output} (hreads : self.Reads s input token outs)
    (hmarker : self.startAfterOf (pageInput input none token) = .ok marker) :
    ReadItems self.mapper s.world.log (pageArgs input none marker)
      (outs.flatMap ListObjectsV2Output.items) := by
  have hsizes : ∀ {size : Option ℤ} {marker : Option Str} {items : List Item},
      ReadItems self.mapper s.world.log (pageArgs input size marker) items →
      ReadItems self.mapper s.world.log (pageArgs input none marker) items := fun h =>
    ⟨h.sorted, h.after, h.named, fun q hq =>
      h.covers q ⟨hq.plain, hq.ne_nil, hq.guard, hq.pre, hq.after⟩⟩
  induction hreads generalizing marker with
  | @last token tid fuel size out hfin hsize hend =>
    obtain ⟨outputs, page, n, hcuts, hn, hitems, -, hmore⟩ :=
      page_of_finished hs hsettled hfin hsize hmarker
    have hle : outputs.length ≤ n + 1 := by
      by_contra hlt
      rw [(hmore (not_le.mp hlt)).1] at hend
      contradiction
    rw [List.flatMap_singleton, hitems, List.take_of_length_le hle]
    exact hsizes (hcuts.readItems (hle.trans_eq hn.symm))
  | @more token tid fuel size out outs hfin hsize hmore hrest ih =>
    obtain ⟨outputs, page, n, hcuts, hn, hitems, hend, htoken⟩ :=
      page_of_finished hs hsettled hfin hsize hmarker
    have hlt : n + 1 < outputs.length := by
      by_contra hle
      rw [hend (not_lt.mp hle)] at hmore
      contradiction
    obtain ⟨-, last, hlast, hnext⟩ := htoken hlt
    have hvalid : Utf8.Valid (Output.key last) := by
      apply (hcuts.named last (List.mem_of_getElem? hlast)).valid hstrings hpre
      intro d hd
      obtain ⟨hd, hne⟩ := Option.filter_eq_some_iff.mp hd
      exact ⟨hdelim d hd, by simpa using hne⟩
    have hdecode : self.startAfterOf (pageInput input none out.nextContinuationToken) =
        .ok (some (Output.key last)) := by
      simp only [startAfterOf, pageInput, hnext, decodeToken_encodeToken _ _ hvalid]
      rfl
    rw [List.flatMap_cons, hitems]
    exact hsizes ((ih hdecode).append hcuts hlast rfl rfl rfl)

/-- Pages read while HDFS changes. In any run, whatever HDFS does and whatever other requests do, let a
client read a listing page by page, where no path that HDFS listed as a file was ever named as a
directory. The items of the pages put together are strictly ascending, each is something that HDFS
named or its group, and a file that every listing of a directory above it named is in exactly one of
them. -/
theorem pages_while_changing (hs : self.Reachable hdfs now start s) (hsettled : Settled s.world.log)
    (hstrings : StringPaths s.world.log) (hpre : Utf8.Valid (input.pre.getD []))
    (hdelim : ∀ d, input.delimiter = some d → Utf8.Valid d) {outs : List ListObjectsV2Output}
    (hreads : self.Reads s input none outs) :
    let args := pageArgs input none input.startAfter
    let items := outs.flatMap ListObjectsV2Output.items
    items.Pairwise (fun x y => Item.key x < Item.key y) ∧
      (∀ x ∈ items, ∃ y : Output, y.item = x ∧ NamedOutput self.mapper s.world.log args y) ∧
      ∀ q, SoughtFile args q → Persists s.world.log (self.mapper.rootSegments ++ q) →
        ∃! x, x ∈ items ∧ ∃ y : Output, y.item = x ∧ PutsOut args (joinSlash q) y := by
  intro args items
  have hitems : ReadItems self.mapper s.world.log args items :=
    hreads.items hs hsettled hstrings hpre hdelim rfl
  refine ⟨hitems.sorted, hitems.named, fun q hq hpersists => ?_⟩
  obtain ⟨x, hx, hputs⟩ := hitems.covers q hq hpersists
  refine ⟨x, ⟨hx, hputs⟩, ?_⟩
  rintro z ⟨hz, y, rfl, hy⟩
  obtain ⟨y', rfl, hy'⟩ := hputs
  have hnodup : (items.map Item.key).Nodup := List.pairwise_map.mpr (hitems.sorted.imp ne_of_lt)
  apply List.inj_on_of_nodup_map hnodup hz hx
  rw [Item.key_item, Item.key_item, hy.key_eq, hy'.key_eq]

/-! ## A file that is moved -/

/-- A namespace in which the file `/b` is moved to `/c`, between `/a` and `/m`. -/
def movedFile (moved : Bool) : StaticHdfs where
  stat _ := .error (.fileNotFound "")
  openFile _ := .error (.fileNotFound "")
  list path :=
    if path = [slash] then
      .ok ([0x61, if moved then 0x63 else 0x62, 0x6D].map fun name => ⟨[slash, name], 3, false, 5⟩)
    else .error (.fileNotFound "")
  chunk _ _ _ _ := none

/-- The listing of the bucket with the delimiter `/`. -/
def bucketInput : ListObjectsV2Input := { bucket := [0x62], delimiter := some [slash] }

/-- The page of these files. -/
def movedPage (moved : Bool) (size : Option ℤ) (token marker : Option Str) : ListObjectsV2Output :=
  reference.withoutCache.listOutput (pageInput bucketInput size token)
    (pageArgs bucketInput size marker) (paginateSlash
      ([0x61, if moved then 0x63 else 0x62, 0x6D].map fun name => ⟨[name], 3, 5⟩) [] [] marker
      (ReadableTree.pageSize size))

/-- What a request for a page is answered before and after the move. -/
theorem eval_moved (moved : Bool) {size : Option ℤ} {token marker : Option Str}
    (hargs : reference.withoutCache.listArgs (pageInput bucketInput size token) =
      .ok (pageArgs bucketInput size marker)) :
    (reference.withoutCache.serve (.listObjectsV2 (pageInput bucketInput size token) 0)).eval
      (movedFile moved).missing = .listObjectsV2 (.ok (movedPage moved size token marker)) := by
  obtain ⟨statuses, hlist, hchildren⟩ : ∃ statuses, (movedFile moved).list [slash] = .ok statuses ∧
      statuses.filterMap (childEntry reference.withoutCache.mapper) =
        [0x61, if moved then 0x63 else 0x62, 0x6D].map fun name => .inl ⟨[name], 3, 5⟩ :=
    ⟨_, rfl, by cases moved <;> decide⟩
  have hsorted : ([0x61, if moved then 0x63 else 0x62, 0x6D].map fun name =>
      (⟨[name], 3, 5⟩ : ListEntry)).Pairwise fun a b => decide (a.key ≤ b.key) = true := by
    cases moved <;> decide
  have hlisting : (listingFromStatuses statuses reference.withoutCache.mapper).files =
        ([0x61, if moved then 0x63 else 0x62, 0x6D].map fun name => ⟨[name], 3, 5⟩) ∧
      (listingFromStatuses statuses reference.withoutCache.mapper).dirs = [] := by
    rw [listingFromStatuses, hchildren]
    exact ⟨List.mergeSort_of_pairwise hsorted, List.mergeSort_nil⟩
  have hstart : reference.withoutCache.mapper.listStart [] = some [slash] := rfl
  have hpre : (pageArgs bucketInput size marker).pre = [] := rfl
  have hslash : (pageArgs bucketInput size marker).delimiter = some [slash] := rfl
  rw [serve, Prog.eval_map, listObjectsV2, hargs]
  simp only []
  rw [Prog.eval_bind, listPage, if_pos hslash, pageSlash, listStartDir, hpre, hstart,
    Prog.eval_bind, ReadableTree.eval_listDir, hlist]
  change Response.listObjectsV2 (.ok (listOutput _ _ _ (paginateSlash _ _ _ _ _))) = _
  rw [hlisting.1, hlisting.2]
  rfl

/-- The first page is read before the move, and the rest after it. -/
def movedPages : List ListObjectsV2Output :=
  [movedPage false (some 1) none none, movedPage true none (some [89, 81]) (some [0x61])]

theorem exists_moved_run :
    ∃ s : Pool Cmd Cmd.Resp (World reference.withoutCache.crates Bool) S3Request Response,
      reference.withoutCache.Reachable (movingHdfs movedFile) 0 false s ∧
        reference.withoutCache.Reads s bucketInput none movedPages := by
  have hdisabled : reference.withoutCache.Uncached := rfl
  have hinit : reference.withoutCache.Reachable (movingHdfs movedFile) 0 false _ := .init
  obtain ⟨s, hs, -, hfirst⟩ := exists_served hdisabled hinit false
    (.listObjectsV2 (pageInput bucketInput (some 1) none) 0)
  obtain ⟨s', hs', hkeeps, hsecond⟩ := exists_served hdisabled hs true
    (.listObjectsV2 (pageInput bucketInput none (some [89, 81])) 0)
  have hbefore := @eval_moved false (some 1) none none rfl
  have hafter := @eval_moved true none (some [89, 81]) (some [0x61]) rfl
  have hrest : reference.withoutCache.Reads s' bucketInput
      (movedPage false (some 1) none none).nextContinuationToken
      [movedPage true none (some [89, 81]) (some [0x61])] := by
    have htoken : (movedPage false (some 1) none none).nextContinuationToken = some [89, 81] := by
      decide +kernel
    rw [htoken]
    exact .last (hafter ▸ hsecond) (by simp) (by decide +kernel)
  exact ⟨s', hs', .more (hkeeps _ _ _ (hbefore ▸ hfirst)) (fun k hk => (Option.some.inj hk).le)
    (by decide +kernel) hrest⟩

/-- What HDFS lists before and after the move. -/
theorem moved_listed {s : Pool Cmd Cmd.Resp (World reference.withoutCache.crates Bool) S3Request
    Response} (hs : reference.withoutCache.Reachable (movingHdfs movedFile) 0 false s) {path : Str}
    {r : Except HdfsError (List FileStatus)} (h : Listed s.world.log path r) :
    (path = [slash] ∧ ∃ moved : Bool, r = .ok ([0x61, if moved then 0x63 else 0x62, 0x6D].map
      fun name => ⟨[slash, name], 3, false, 5⟩)) ∨ path ≠ [slash] ∧ r = .error (.fileNotFound "") := by
  obtain ⟨e, he, hreplies⟩ := h
  obtain ⟨moved, rfl⟩ := replies_answered hs e he _ _ hreplies
  by_cases hroot : path = [slash]
  · exact .inl ⟨hroot, moved, if_pos hroot⟩
  · exact .inr ⟨hroot, if_neg hroot⟩

/-- It stays settled. -/
theorem moved_settled {s : Pool Cmd Cmd.Resp (World reference.withoutCache.crates Bool) S3Request
    Response} (hs : reference.withoutCache.Reachable (movingHdfs movedFile) 0 false s) :
    Settled s.world.log := by
  intro p statuses hp h
  rcases moved_listed hs h with ⟨hpath, moved, hok⟩ | ⟨-, herr⟩
  · obtain rfl : p = [] := absPath_injective hp (by simp) hpath
    obtain rfl := Except.ok.inj hok
    left
    constructor
    · intro s hs
      obtain ⟨name, hname, rfl⟩ := List.mem_map.mp hs
      refine ⟨[name], ?_, rfl⟩
      simp only [List.mem_cons, List.not_mem_nil, or_false] at hname
      rcases hname with rfl | rfl | rfl
      · decide
      · cases moved <;> decide
      · decide
    · cases moved <;> simp
  · contradiction

/-- The pages before and after the move, and the file `/m` that stays where it is. -/
theorem pages_while_changing_moved :
    ∃ s : Pool Cmd Cmd.Resp (World reference.withoutCache.crates Bool) S3Request Response,
      reference.withoutCache.Reads s bucketInput none movedPages ∧
      let args := pageArgs bucketInput none none
      let items := movedPages.flatMap ListObjectsV2Output.items
      items.Pairwise (fun x y => Item.key x < Item.key y) ∧
      (∀ x ∈ items, ∃ y : Output, y.item = x ∧
        NamedOutput reference.withoutCache.mapper s.world.log args y) ∧
      ∃! x, x ∈ items ∧ ∃ y : Output, y.item = x ∧ PutsOut args [0x6D] y := by
  obtain ⟨s, hs, hreads⟩ := exists_moved_run
  have hplain : ∀ s ∈ ([[0x6D]] : List Str), Plain s := by
    intro s hs
    rw [List.mem_singleton.mp hs]
    exact ⟨by decide, by decide, by decide, by decide⟩
  have hsettled := moved_settled hs
  have hstrings : StringPaths s.world.log := by
    intro path statuses h t ht
    rcases moved_listed hs h with ⟨-, moved, hok⟩ | ⟨-, herr⟩
    · obtain rfl := Except.ok.inj hok
      obtain ⟨name, hname, rfl⟩ := List.mem_map.mp ht
      have hchar : name = 0x61 ∨ name = 0x62 ∨ name = 0x63 ∨ name = 0x6D := by
        cases moved <;> simp at hname <;> tauto
      rcases hchar with rfl | rfl | rfl | rfl
      · exact ⟨['/', 'a'], by decide⟩
      · exact ⟨['/', 'b'], by decide⟩
      · exact ⟨['/', 'c'], by decide⟩
      · exact ⟨['/', 'm'], by decide⟩
    · contradiction
  have hpersists : Persists s.world.log [[0x6D]] := by
    intro dir name r hdir h
    obtain ⟨rfl, rfl⟩ : dir = [] ∧ name = [0x6D] := by
      have hlen := hdir.length_le
      rw [List.length_append, List.length_singleton, List.length_singleton] at hlen
      obtain rfl : dir = [] := List.length_eq_zero_iff.mp (by omega)
      simpa using hdir
    rcases moved_listed hs h with ⟨-, moved, rfl⟩ | ⟨hne, -⟩
    · exact ⟨_, rfl, ⟨[slash, 0x6D], 3, false, 5⟩, by simp, rfl, by simp⟩
    · exact absurd rfl hne
  have hdelim : ∀ d, bucketInput.delimiter = some d → Utf8.Valid d := fun d hd =>
    Option.some.inj hd ▸ valid_slash
  have hpre : Utf8.Valid (bucketInput.pre.getD []) := Utf8.valid_nil
  obtain ⟨hsorted, hnamed, hcovers⟩ :=
    pages_while_changing hs hsettled hstrings hpre hdelim hreads
  exact ⟨s, hreads, hsorted, hnamed, hcovers [[0x6D]]
    ⟨hplain, by simp, by decide, List.nil_prefix, by simp [pageArgs, bucketInput]⟩ hpersists⟩

end HdfsGateway

end HdfsS3Gateway
