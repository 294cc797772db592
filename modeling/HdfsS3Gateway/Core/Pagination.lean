import HdfsS3Gateway.Core.Listing
import Mathlib.Data.Finset.Sort

/-!
# Pages of a listing

`paginate` collapses entries at a delimiter, collects the outputs, sorts them and cuts a page.
`paginateSlash` does the same for `/` and the direct children of one directory, by merging two
arrays that are sorted already. An index into one of those arrays is modelled by the part of the
array that starts there, and the merge loop gives up one entry of the two parts in each turn.

A continuation token is the base64 form of the last key of a page. The two base64 engines belong to
a third-party crate; what is assumed of each is that it decodes what it encodes.
-/

namespace HdfsS3Gateway

open SortedSearch

/-! ## Collapsing at a delimiter -/

/-- `CommonPrefixSet`: a set of strings, listed in byte order. -/
structure CommonPrefixSet where
  prefixes : Finset Str := ∅

/-- `CommonPrefixSet::insert`. -/
def CommonPrefixSet.insert (set : CommonPrefixSet) (commonPrefix : Str) : CommonPrefixSet where
  prefixes := Insert.insert commonPrefix set.prefixes

/-- `CommonPrefixSet::into_vec`. -/
def CommonPrefixSet.intoVec (set : CommonPrefixSet) : List Str := set.prefixes.sort (· ≤ ·)

/-- `s.find(pattern)`: the index of the first occurrence. -/
def findStr (s pattern : Str) : Option ℕ :=
  if startsWith s pattern then some 0
  else match s with
    | [] => none
    | _ :: s => (findStr s pattern).map (· + 1)

/-- The common prefix that a matching key collapses to: everything up to and including the first
delimiter after the prefix. -/
def collapse (pre : Str) (delimiter : Option Str) (key : Str) : Option Str :=
  let rest := key.drop pre.length
  match delimiter with
  | some delim => (findStr rest delim).map fun idx => pre ++ rest.take (idx + delim.length)
  | none => none

/-- The loop of `list_to_contents`, on the contents and the common prefixes found so far. -/
def listToContentsLoop (pre : Str) (delimiter : Option Str) :
    List ListEntry → List ListEntry → CommonPrefixSet → List ListEntry × CommonPrefixSet
  | [], contents, common => (contents, common)
  | entry :: entries, contents, common =>
    if !startsWith entry.key pre then listToContentsLoop pre delimiter entries contents common
    else match collapse pre delimiter entry.key with
      | some commonPrefix =>
        listToContentsLoop pre delimiter entries contents (common.insert commonPrefix)
      | none => listToContentsLoop pre delimiter entries (contents ++ [entry]) common

/-- `list_to_contents`; an empty delimiter groups nothing. -/
def listToContents (entries : List ListEntry) (pre : Str) (delimiter : Option Str) :
    List ListEntry × CommonPrefixSet :=
  listToContentsLoop pre (delimiter.filter fun d => !d.isEmpty) entries [] {}

/-! ## The general paginator -/

/-- `Page`: the contents and common prefixes of one page, and the key to resume from. -/
structure Page where
  contents : List ListEntry
  commonPrefixes : List Str
  isTruncated : Bool
  nextToken : Option Str
  deriving DecidableEq, Repr

/-- The empty page without truncation. -/
def Page.empty : Page := ⟨[], [], false, none⟩

/-- The common prefix of a matching directory for the delimiter `/`. -/
def collapseDir (pre dir : Str) : Str :=
  let rest := dir.drop pre.length
  match findStr rest [slash] with
  | some i => pre ++ rest.take (i + 1)
  | none => dirOutput dir

/-- `paginate`. -/
def paginate (files : List ListEntry) (dirs : List Str) (pre : Str) (delimiter marker : Option Str)
    (maxKeys : ℕ) : Page :=
  if maxKeys = 0 then Page.empty
  else
    let (contents, common) := listToContents files pre delimiter
    let commonVec := common.intoVec ++
      if delimiter = some [slash] then (dirs.filter (startsWith · pre)).map (collapseDir pre) else []
    -- `sort` and `dedup`, which drops equal neighbours
    let commonVec := (commonVec.mergeSort fun a b => decide (a ≤ b)).destutter (· ≠ ·)
    let contents := contents.mergeSort fun a b : ListEntry => decide (a.key ≤ b.key)
    let contents := match marker with
      | some marker => contents.filter fun e : ListEntry => marker < e.key
      | none => contents
    let commonVec := match marker with
      | some marker => commonVec.filter fun p => marker < p
      | none => commonVec
    let allKeys := (contents.map ListEntry.key ++ commonVec).mergeSort fun a b => decide (a ≤ b)
    let take := min maxKeys allKeys.length
    let page := allKeys.take take
    let isTruncated := decide (take < allKeys.length)
    { contents := contents.filter fun e => page.contains e.key
      commonPrefixes := commonVec.filter fun p => page.contains p
      isTruncated
      nextToken := if isTruncated then page.getLast? else none }

/-! ## The paginator for the delimiter `/` -/

/-- Drop files outside the prefix range: those below it one by one, those above it all at once. -/
def skipFiles (pre : Str) : List ListEntry → List ListEntry
  | [] => []
  | f :: files =>
    if startsWith f.key pre then f :: files
    else if pre < f.key then []
    else skipFiles pre files

/-- Drop directories outside the prefix range in the same way. -/
def skipDirs (pre : Str) : List Str → List Str
  | [] => []
  | d :: dirs =>
    if dirOutputStartsWith d pre then d :: dirs
    else if cmpDirOutput d pre = .gt then []
    else skipDirs pre dirs

theorem length_skipFiles_le (pre : Str) (files : List ListEntry) :
    (skipFiles pre files).length ≤ files.length := by
  induction files with
  | nil => exact Nat.le_refl _
  | cons f files ih =>
    rw [skipFiles, List.length_cons]
    split_ifs
    · exact Nat.le_refl _
    · exact Nat.zero_le _
    · exact Nat.le_succ_of_le ih

theorem length_skipDirs_le (pre : Str) (dirs : List Str) :
    (skipDirs pre dirs).length ≤ dirs.length := by
  induction dirs with
  | nil => exact Nat.le_refl _
  | cons d dirs ih =>
    rw [skipDirs, List.length_cons]
    split_ifs
    · exact Nat.le_refl _
    · exact Nat.zero_le _
    · exact Nat.le_succ_of_le ih

/-- The outputs of a page so far, with the last one. -/
structure Merged where
  contents : List ListEntry := []
  commonPrefixes : List Str := []
  lastKey : Option Str := none

/-- `contents.push(file)`, remembering its key. -/
def Merged.pushFile (m : Merged) (file : ListEntry) : Merged :=
  { m with contents := m.contents ++ [file], lastKey := some file.key }

/-- `common_prefixes.push(output)`, remembering it. -/
def Merged.pushDir (m : Merged) (dir : Str) : Merged :=
  { m with commonPrefixes := m.commonPrefixes ++ [dirOutput dir], lastKey := some (dirOutput dir) }

/-- The page that the outputs make. -/
def Merged.page (m : Merged) (isTruncated : Bool) : Page where
  contents := m.contents
  commonPrefixes := m.commonPrefixes
  isTruncated
  nextToken := if isTruncated then m.lastKey else none

set_option linter.unusedVariables false in
/-- The merge loop of `paginate_slash`, on what is left of the two arrays. -/
def slashLoop (pre : Str) (maxKeys : ℕ) (files : List ListEntry) (dirs : List Str) (m : Merged) :
    Page :=
  match hf : skipFiles pre files, hd : skipDirs pre dirs with
  | [], [] => m.page false
  | file :: files', [] =>
    if m.contents.length + m.commonPrefixes.length = maxKeys then m.page true
    else slashLoop pre maxKeys files' [] (m.pushFile file)
  | [], dir :: dirs' =>
    if m.contents.length + m.commonPrefixes.length = maxKeys then m.page true
    else slashLoop pre maxKeys [] dirs' (m.pushDir dir)
  | file :: files', dir :: dirs' =>
    if m.contents.length + m.commonPrefixes.length = maxKeys then m.page true
    else if cmpDirOutput dir file.key = .gt then
      slashLoop pre maxKeys files' (dir :: dirs') (m.pushFile file)
    else slashLoop pre maxKeys (file :: files') dirs' (m.pushDir dir)
termination_by files.length + dirs.length
decreasing_by
  all_goals
    have hfl := length_skipFiles_le pre files
    have hdl := length_skipDirs_le pre dirs
    rw [hf] at hfl
    rw [hd] at hdl
    simp only [List.length_cons, List.length_nil] at hfl hdl ⊢
    omega

/-- `paginate_slash`. -/
def paginateSlash (files : List ListEntry) (dirs : List Str) (pre : Str) (marker : Option Str)
    (maxKeys : ℕ) : Page :=
  if maxKeys = 0 then Page.empty
  else
    let fi := partitionPoint (fun f => decide (f.key < pre)) files
    let di := partitionPoint (fun d => cmpDirOutput d pre == .lt) dirs
    let (fi, di) := match marker with
      | some marker =>
        (max fi (partitionPoint (fun f => decide (f.key ≤ marker)) files),
          max di (partitionPoint (fun d => cmpDirOutput d marker != .gt) dirs))
      | none => (fi, di)
    slashLoop pre maxKeys (files.drop fi) (dirs.drop di) {}

/-! ## The indices of the merge loop

The same loop as the source runs it, on indices. An index that is out of bounds ends the run with
`none`, and so does a loop that needs more rounds than it is given. -/

/-- A loop that drops entries outside the prefix range, by index. -/
def skipAt {α : Type} (inRange past : α → Bool) (xs : List α) : (rounds i : ℕ) → Option ℕ
  | 0, _ => none
  | rounds + 1, i =>
    if i < xs.length then do
      let x ← xs[i]?
      if inRange x then some i
      else skipAt inRange past xs rounds (if past x then xs.length else i + 1)
    else some i

/-- The first inner loop. -/
def skipFilesAt (pre : Str) (files : List ListEntry) (rounds fi : ℕ) : Option ℕ :=
  skipAt (fun f => startsWith f.key pre) (fun f => decide (pre < f.key)) files rounds fi

/-- The second inner loop. -/
def skipDirsAt (pre : Str) (dirs : List Str) (rounds di : ℕ) : Option ℕ :=
  skipAt (fun d => dirOutputStartsWith d pre) (fun d => cmpDirOutput d pre == .gt) dirs rounds di

/-- The merge loop on the two indices. -/
def slashLoopAt (pre : Str) (maxKeys : ℕ) (files : List ListEntry) (dirs : List Str) :
    (rounds fi di : ℕ) → Merged → Option Page
  | 0, _, _, _ => none
  | rounds + 1, fi, di, m => do
    let fi ← skipFilesAt pre files (files.length + 1) fi
    let di ← skipDirsAt pre dirs (dirs.length + 1) di
    let nextFile := files[fi]?
    let nextDir := dirs[di]?
    if nextFile = none ∧ nextDir = none then some (m.page false)
    else if m.contents.length + m.commonPrefixes.length = maxKeys then some (m.page true)
    else
      let takeFile : Bool := match nextFile, nextDir with
        | some file, some dir => cmpDirOutput dir file.key == .gt
        | some _, none => true
        | none, _ => false
      if takeFile then do
        let file ← files[fi]?
        slashLoopAt pre maxKeys files dirs rounds (fi + 1) di (m.pushFile file)
      else do
        let dir ← dirs[di]?
        slashLoopAt pre maxKeys files dirs rounds fi (di + 1) (m.pushDir dir)

/-- `paginate_slash`, by index. -/
def paginateSlashAt (rounds : ℕ) (files : List ListEntry) (dirs : List Str) (pre : Str)
    (marker : Option Str) (maxKeys : ℕ) : Option Page :=
  if maxKeys = 0 then some Page.empty
  else
    let fi := partitionPoint (fun f => decide (f.key < pre)) files
    let di := partitionPoint (fun d => cmpDirOutput d pre == .lt) dirs
    let (fi, di) := match marker with
      | some marker =>
        (max fi (partitionPoint (fun f => decide (f.key ≤ marker)) files),
          max di (partitionPoint (fun d => cmpDirOutput d marker != .gt) dirs))
      | none => (fi, di)
    slashLoopAt pre maxKeys files dirs rounds fi di {}

/-! ## Continuation tokens -/

/-- An engine of the base64 crate. -/
structure Base64Engine where
  encode : List UInt8 → Str
  decode : Str → Option (List UInt8)
  decode_encode : ∀ bytes, decode (encode bytes) = some bytes

/-- `String::from_utf8(bytes).ok()`. -/
def stringFromUtf8 (bytes : List UInt8) : Option Str :=
  if ByteArray.IsValidUTF8 ⟨bytes.toArray⟩ then some bytes else none

/-- `encode_token`: the URL-safe form without padding. -/
def encodeToken (urlSafeNoPad : Base64Engine) (lastKey : Str) : Str := urlSafeNoPad.encode lastKey

/-- `decode_token`: the URL-safe form, or the standard form of older tokens. -/
def decodeToken (urlSafeNoPad standard : Base64Engine) (token : Str) : Option Str :=
  ((urlSafeNoPad.decode token).or (standard.decode token)).bind stringFromUtf8

end HdfsS3Gateway
