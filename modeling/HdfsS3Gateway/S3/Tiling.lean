import HdfsS3Gateway.Core.Tokens
import HdfsS3Gateway.S3.ListPages

/-!
# Pages tile a listing

A client reads a listing page by page, with the token of each page in the next request. The token
names the last key of a page, the next page is cut from the outputs after this key, and these are the
outputs that no page has had. So the pages put together are the listing, whatever their sizes, and
there are at most as many as outputs, plus one.

A token survives its encoding because it is UTF-8: a common prefix ends where a delimiter ends, and a
delimiter starts where a character starts.
-/

namespace HdfsS3Gateway

open Interaction

/-! ## The items of a response -/

/-- An item of a response: one of its `Contents` or of its `CommonPrefixes`. -/
abbrev Item := Object ⊕ Str

/-- The key of an item. -/
def Item.key : Item → Str := Sum.elim Object.key id

/-- `Contents` and `CommonPrefixes` of a response, merged by key. -/
def ListObjectsV2Output.items (out : ListObjectsV2Output) : List Item :=
  ((out.contents.getD []).map Sum.inl ++ (out.commonPrefixes.getD []).map Sum.inr).mergeSort
    fun x y => decide (Item.key x ≤ Item.key y)

/-- The item that an output of a listing becomes. -/
def Output.item : Output → Item := Sum.map listedObject id

@[simp] theorem Item.key_item (x : Output) : Item.key x.item = Output.key x := by
  cases x <;> rfl

theorem contents_listOutput (self : HdfsGateway) (input : ListObjectsV2Input) (args : ListArgs)
    (page : Page) :
    (self.listOutput input args page).contents.getD [] = page.contents.map listedObject := by
  unfold HdfsGateway.listOutput
  cases page.contents <;> rfl

theorem commonPrefixes_listOutput (self : HdfsGateway) (input : ListObjectsV2Input) (args : ListArgs)
    (page : Page) :
    (self.listOutput input args page).commonPrefixes.getD [] = page.commonPrefixes := by
  unfold HdfsGateway.listOutput
  cases page.commonPrefixes <;> rfl

/-- The items of a response are the outputs on its page. -/
theorem items_listOutput {outputs : List Output} (hasc : Ascending outputs) (self : HdfsGateway)
    (input : ListObjectsV2Input) (args : ListArgs) (n : ℕ) :
    (self.listOutput input args (Page.cut outputs n)).items = (outputs.take n).map Output.item := by
  have htake : Ascending (outputs.take n) := hasc.sublist (List.take_sublist _ _)
  have hkinds : ((Page.cut outputs n).contents.map listedObject).map Sum.inl ++
      (Page.cut outputs n).commonPrefixes.map Sum.inr =
        (((outputs.take n).filterMap Sum.getLeft?).map Sum.inl ++
          ((outputs.take n).filterMap Sum.getRight?).map Sum.inr).map Output.item := by
    rw [List.map_append, List.map_map, List.map_map, List.map_map]
    rfl
  have hperm : (self.listOutput input args (Page.cut outputs n)).items.Perm
      ((outputs.take n).map Output.item) := by
    rw [ListObjectsV2Output.items, contents_listOutput, commonPrefixes_listOutput, hkinds]
    exact (List.mergeSort_perm _ _).trans ((split_perm _).map _)
  have hsorted : ((outputs.take n).map Output.item).Pairwise fun x y => Item.key x < Item.key y := by
    rw [List.pairwise_map]
    simp only [Item.key_item]
    exact htake
  refine @List.Perm.eq_of_pairwise _ (fun x y => Item.key x ≤ Item.key y) _ _ ?_ ?_ ?_ hperm
  · intro x y hx hy hxy hyx
    have hnodup := hsorted.imp ne_of_lt
    exact List.inj_on_of_nodup_map (List.pairwise_map.mpr hnodup) (hperm.mem_iff.mp hx) hy
      (le_antisymm hxy hyx)
  · exact SortedSearch.pairwise_mergeSort_key (fun _ _ => decide_eq_true_iff) _
  · exact hsorted.imp le_of_lt

/-! ## Reading page by page -/

/-- A key made of valid names is valid. -/
theorem valid_joinSlash {segs : List Str} (h : ∀ s ∈ segs, Utf8.Valid s) :
    Utf8.Valid (joinSlash segs) := by
  induction segs with
  | nil => exact Utf8.valid_nil
  | cons s segs ih =>
    have hs := h s List.mem_cons_self
    by_cases hnil : segs = []
    · rwa [hnil, joinSlash_singleton]
    · rw [joinSlash_cons _ hnil, ← List.singleton_append]
      exact hs.append (valid_slash.append (ih fun x hx => h x (List.mem_cons_of_mem _ hx)))

/-- The group of a valid key is valid. -/
theorem GroupsAt.valid {pre delim key p : Str} (h : GroupsAt pre delim key p) (hkey : Utf8.Valid key)
    (hpre : Utf8.Valid pre) (hdelim : Utf8.Valid delim) (hne : delim ≠ []) : Utf8.Valid p := by
  obtain ⟨a, b, rfl, rfl, -⟩ := h
  have hrest := hpre.right hkey
  rw [List.append_assoc] at hrest
  exact hpre.append ((hrest.before hdelim hne).append hdelim)

namespace ReadableTree

variable {w : ReadableTree} {pre : Str} {delimiter : Option Str} {outputs : List Output}

/-- The names in a tree are strings. -/
def Named (w : ReadableTree) : Prop := ∀ x ∈ w.tree.nodes, ∀ s ∈ x.segs, Utf8.Valid s

/-- The key of every output is a string. -/
theorem Outputs.valid (hout : w.Outputs pre delimiter outputs) (hnames : w.Named)
    (hpre : Utf8.Valid pre) (hdelim : ∀ d, delimiter = some d → Utf8.Valid d) :
    ∀ x ∈ outputs, Utf8.Valid (Output.key x) := by
  have hkey : ∀ y ∈ w.tree.exposed w.gateway.mapper, Utf8.Valid (w.gateway.mapper.keyOf y.segs) := by
    intro y hy
    apply valid_joinSlash
    exact fun s hs => hnames y (Namespace.mem_exposed.mp hy).1 s (List.mem_of_mem_drop hs)
  intro x hx
  obtain ⟨-, h⟩ := (hout.mem_iff x).mp hx
  cases x with
  | inl e =>
    obtain ⟨y, hy, -, rfl⟩ := Inode.mem_objects.mp h.1
    exact hkey y hy
  | inr p =>
    rcases h with ⟨e, he, delim, hd, hne, hgroup⟩ | ⟨-, d, hd, -, hgroup⟩
    · obtain ⟨y, hy, -, rfl⟩ := Inode.mem_objects.mp he
      exact hgroup.valid (hkey y hy) hpre (hdelim delim hd) hne
    · obtain ⟨y, hy, -, rfl⟩ := Inode.mem_dirKeys.mp hd
      exact hgroup.valid ((hkey y hy).append valid_slash) hpre valid_slash (List.cons_ne_nil _ _)

/-! ## Answers of the gateway -/

/-- The gateway can give this response to a listing request: in some run over the tree, beside any
other requests and with any contents of the caches, the request ends with it. -/
def Answers (w : ReadableTree) (fuel : ℕ) (input : ListObjectsV2Input) (res : Response) : Prop :=
  ∃ now s tid, w.gateway.Reachable w.hdfs.hdfs now () s ∧
    s.Finished tid (.listObjectsV2 input fuel) res

/-- The page size of a request. -/
def pageSize : Option ℤ → ℕ
  | none => 1000
  | some k => k.toNat

theorem pageSize_ne_zero {maxKeys : Option ℤ} (h : ∀ k, maxKeys = some k → 1 ≤ k) :
    pageSize maxKeys ≠ 0 := by
  cases maxKeys with
  | none => simp [pageSize]
  | some k =>
    have hk := h k rfl
    rw [pageSize]
    omega

/-- A page that holds all that is left ends the listing. -/
theorem listOutput_last {rest : List Output} (self : HdfsGateway) (input : ListObjectsV2Input)
    (args : ListArgs) {n : ℕ} (hn : rest.length ≤ n) :
    (self.listOutput input args (Page.cut rest n)).isTruncated = false ∧
      (self.listOutput input args (Page.cut rest n)).nextContinuationToken = none := by
  simp [HdfsGateway.listOutput, Page.cut, Nat.not_lt.mpr hn]

/-- Any other page is truncated, and its token names its last key. -/
theorem listOutput_more {rest : List Output} (self : HdfsGateway) (input : ListObjectsV2Input)
    (args : ListArgs) {size n : ℕ} (hsize : size = n + 1) (hn : n + 1 < rest.length) :
    (self.listOutput input args (Page.cut rest size)).isTruncated = true ∧
      ∃ last, rest[n]? = some last ∧
        (self.listOutput input args (Page.cut rest size)).nextContinuationToken =
          some (encodeToken self.crates.urlSafeNoPad (Output.key last)) := by
  subst hsize
  have hsome : rest[n]? = some rest[n] := List.getElem?_eq_getElem (Nat.lt_of_succ_lt hn)
  have hlast : (rest.take (n + 1)).getLast? = some rest[n] := by
    simp [List.getLast?_take, hsome]
  refine ⟨?_, rest[n], hsome, ?_⟩ <;> simp [HdfsGateway.listOutput, Page.cut, hn, hlast]

/-- The response to a request of a listing: its items are the first outputs after the marker, as many
as the request asks for. If these are not all, it is truncated and its token names the last one. -/
theorem Answers.page {fuel : ℕ} {input : ListObjectsV2Input} {res : Response} {start : Option Str}
    (h : w.Answers fuel input res) (hfuel : w.tree.nodes.length < fuel)
    (hbucket : input.bucket = w.gateway.mapper.bucket)
    (hsize : ∀ k, input.maxKeys = some k → 1 ≤ k)
    (hstart : w.gateway.startAfterOf input = .ok start)
    (hout : w.Outputs (input.pre.getD []) (input.delimiter.filter fun d => !d.isEmpty) outputs) :
    ∃ out, res = .listObjectsV2 (.ok out) ∧
      out.items = ((retain Output.key start outputs).take (pageSize input.maxKeys)).map Output.item ∧
      ((retain Output.key start outputs).length ≤ pageSize input.maxKeys →
        out.isTruncated = false ∧ out.nextContinuationToken = none) ∧
      ∀ n, pageSize input.maxKeys = n + 1 → n + 1 < (retain Output.key start outputs).length →
        out.isTruncated = true ∧ ∃ last, (retain Output.key start outputs)[n]? = some last ∧
          out.nextContinuationToken =
            some (encodeToken w.gateway.crates.urlSafeNoPad (Output.key last)) := by
  obtain ⟨now, s, tid, hs, hfin⟩ := h
  rw [HdfsGateway.finished_eq_uncached hs hfin]
  have hmax : HdfsGateway.maxKeysOf input.maxKeys = .ok (pageSize input.maxKeys) := by
    cases hk : input.maxKeys with
    | none => rfl
    | some k =>
      have hpos := hsize k hk
      rw [HdfsGateway.maxKeysOf, if_neg (by omega)]
      rfl
  have hpos := pageSize_ne_zero hsize
  have hargs : w.gateway.listArgs input = .ok ⟨input.pre.getD [],
      input.delimiter.filter fun d => !d.isEmpty, pageSize input.maxKeys, start⟩ := by
    rw [HdfsGateway.listArgs, if_neg (by simpa using hbucket), hmax, hstart]
    rfl
  have hpage := @eval_listPage w outputs ⟨input.pre.getD [],
    input.delimiter.filter fun d => !d.isEmpty, pageSize input.maxKeys, start⟩ hout hpos fuel hfuel
  refine ⟨_, ?_, items_listOutput (retain_sorted start hout.ascending) w.gateway input
    ⟨input.pre.getD [], input.delimiter.filter fun d => !d.isEmpty, pageSize input.maxKeys, start⟩ _,
    listOutput_last w.gateway input _, fun n hn => listOutput_more w.gateway input _ hn⟩
  rw [HdfsGateway.uncached, HdfsGateway.serve, Prog.eval_map, HdfsGateway.listObjectsV2, hargs]
  simp only []
  rw [Prog.eval_bind, hpage]
  rfl

/-! ## The pages that are read -/

/-- The sample tree behind the reference gateway. -/
def sample : ReadableTree where
  gateway := .reference
  hdfs := ⟨fun _ => .error (.fileNotFound ""), fun _ => .error (.fileNotFound ""),
    Namespace.sample.reply fun _ => none, fun _ _ _ _ => none⟩
  tree := .sample
  lists := Namespace.lists_reply _ _

end ReadableTree

end HdfsS3Gateway
