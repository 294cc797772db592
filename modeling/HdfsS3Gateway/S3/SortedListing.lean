import HdfsS3Gateway.Core.Listing
import HdfsS3Gateway.Core.Path
import HdfsS3Gateway.Library.Prog
import HdfsS3Gateway.S3.Error

/-!
# Lazy, sorted merge over directory listings

The engine of the recursive listings. It keeps a heap of cursors, one for the files and one for the
directories of each directory it has opened, pops the cursor whose front has the smallest output
key, and emits a file or opens a directory. Opening a directory is the only effect, so the engine
is a program over `list_dir` calls and says nothing about who answers them.

The two loops run on fuel, because nothing bounds the tree that the answers describe. Running out
of fuel is an outcome of its own, so that a statement about the engine can exclude it.
-/

namespace HdfsS3Gateway

open Interaction Lexicographic SortedSearch

/-- `FileStatus`: one child of a directory as the NameNode reports it. -/
structure FileStatus where
  path : Str
  length : UInt64
  isdir : Bool
  modificationTime : UInt64
  deriving DecidableEq, Repr

/-- `DirLister::list_dir`, as the effect of a program. -/
abbrev Listing (α : Type) := Prog Str (fun _ => Except HdfsError DirListing) α

/-! ## From statuses to a listing -/

/-- One child in S3 key space: a file entry or a directory key. Children outside the root, and the
root itself, are no objects. -/
def childEntry (mapper : PathMapper) (status : FileStatus) : Option (ListEntry ⊕ Str) :=
  match mapper.hdfsPathToKey status.path with
  | none => none
  | some key =>
    if key = [] then none
    else if status.isdir then some (.inr key)
    else some (.inl { key, size := status.length, modificationTime := status.modificationTime })

/-- `listing_from_statuses`. -/
def listingFromStatuses (statuses : List FileStatus) (mapper : PathMapper) : DirListing :=
  let children := statuses.filterMap (childEntry mapper)
  DirListing.sort (children.filterMap Sum.getLeft?) (children.filterMap Sum.getRight?)

/-! ## Cursors -/

/-- `Cursor`: a position in the files or in the directories of a listing. -/
structure Cursor where
  listing : DirListing
  files : Bool
  idx : ℕ
  in_bounds : idx < if files then listing.files.length else listing.dirs.length

namespace Cursor

/-- `Cursor::len`. -/
def len (c : Cursor) : ℕ := if c.files then c.listing.files.length else c.listing.dirs.length

/-- The entry in front of the cursor. -/
def entry (c : Cursor) : ListEntry ⊕ Str :=
  if h : c.files = true then
    .inl (c.listing.files.get ⟨c.idx, by simpa [h] using c.in_bounds⟩)
  else
    .inr (c.listing.dirs.get ⟨c.idx, by simpa [h] using c.in_bounds⟩)

/-- `Cursor::front`. -/
def front (c : Cursor) : Str := c.entry.elim ListEntry.key id

/-- `Cursor::advance`: the cursor at the next entry, if there is one. -/
def advance (c : Cursor) : Option Cursor :=
  if h : c.idx + 1 < c.len then
    some { listing := c.listing, files := c.files, idx := c.idx + 1, in_bounds := h }
  else none

/-- `Cursor::cmp`: compare the output keys of the two fronts. -/
def cmp (c other : Cursor) : Ordering :=
  match c.files, other.files with
  | true, true => cmpList c.front other.front
  | false, false => cmpDirKeys c.front other.front
  | true, false => cmpFileDir c.front other.front
  | false, true => (cmpFileDir other.front c.front).swap

end Cursor

/-- `heap.pop()` of a heap of reversed cursors: a cursor with a smallest front, and the rest. -/
def popMin : List Cursor → Option (Cursor × List Cursor)
  | [] => none
  | c :: heap =>
    match popMin heap with
    | none => some (c, [])
    | some (least, rest) =>
      if least.cmp c = .lt then some (least, c :: rest) else some (c, least :: rest)

/-! ## The marker -/

/-- `dir_children_all_before`: every child key of the directory sorts before the marker. -/
def dirChildrenAllBefore (dirKey after : Str) : Bool :=
  let common := min dirKey.length after.length
  match cmpList (dirKey.take common) (after.take common) with
  | .lt => true
  | .gt => false
  | .eq =>
    if h : dirKey.length < after.length then decide (slash < after.get ⟨dirKey.length, h⟩)
    else false

/-- `dirs_start_after`: the first directory that can still hold a key greater than the marker. -/
def dirsStartAfter (dirs : List Str) (marker : Str) : ℕ :=
  let start := partitionPoint (fun d => cmpDirOutput d marker != .gt) dirs
  match (dirs.take start).getLast? with
  | some candidate =>
    if h : candidate.length < marker.length then
      if startsWith marker candidate && marker.get ⟨candidate.length, h⟩ == slash then start - 1
      else start
    else start
  | none => start

/-! ## The engine -/

/-- What ends a listing without a result: an HDFS error, or the fuel. -/
inductive ListError
  | upstream (err : HdfsError)
  | outOfFuel
  deriving DecidableEq, Repr

/-- `SortedListing`. -/
structure SortedListing where
  mapper : PathMapper
  pre : Str
  after : Option Str
  start : Str
  heap : List Cursor := []
  startSeeded : Bool := false
  exhausted : Bool := false

namespace SortedListing

/-- `SortedListing::new`. -/
def new (start pre : Str) (after : Option Str) (mapper : PathMapper) : SortedListing :=
  { mapper, pre, after, start }

/-- The cursor at a position of a listing, if the position is one. -/
def cursorAt (listing : DirListing) (files : Bool) (idx : ℕ) : Option Cursor :=
  if h : idx < if files then listing.files.length else listing.dirs.length then
    some { listing, files, idx, in_bounds := h }
  else none

/-- `push_listing`: the two cursors of a listing, at the first entries after the marker. -/
def pushListing (self : SortedListing) (listing : DirListing) : SortedListing :=
  let (filesStart, dirsStart) := match self.after with
    | some marker =>
      (partitionPoint (fun f => decide (f.key ≤ marker)) listing.files,
        dirsStartAfter listing.dirs marker)
    | none => (0, 0)
  { self with
    heap := (cursorAt listing true filesStart).toList ++
      ((cursorAt listing false dirsStart).toList ++ self.heap) }

/-- What one turn of the loop of `next_entry` does: emit a file, stop, or go round again. -/
inductive Turn
  | emit (entry : ListEntry)
  | stop
  | again
  | fail (err : HdfsError)

/-- The end of a turn that popped a directory: open it and push its listing. A directory that has
vanished or is unreadable is skipped. -/
def openDir (self : SortedListing) (hdfsPath : Str) : Listing (Turn × SortedListing) := do
  match ← Prog.perform hdfsPath with
  | .ok listing => pure (.again, self.pushListing listing)
  | .error err =>
    if isDirDenied err then pure (.again, self)
    else match err with
      | .fileNotFound _ => pure (.again, self)
      | err => pure (.fail err, self)

/-- One turn of the loop of `next_entry`. -/
def turn (self : SortedListing) : Listing (Turn × SortedListing) :=
  match popMin self.heap with
  | none => pure (.stop, { self with exhausted := true })
  | some (cursor, heap) =>
    let self := { self with heap := cursor.advance.toList ++ heap }
    match cursor.entry with
    | .inl entry =>
      if !startsWith entry.key self.pre then pure (.again, self)
      else match self.after with
        | some after => if entry.key ≤ after then pure (.again, self) else pure (.emit entry, self)
        | none => pure (.emit entry, self)
    | .inr key =>
      if !startsWith key self.pre then pure (.again, self)
      else if (self.after.map (dirChildrenAllBefore key)).getD false then pure (.again, self)
      else match self.mapper.keyToHdfsPath key with
        | none => pure (.again, self)
        | some hdfsPath => self.openDir hdfsPath

/-- The loop of `next_entry`. -/
def nextLoop : (fuel : ℕ) → SortedListing →
    Listing (Except ListError (Option ListEntry) × SortedListing)
  | 0, self => pure (.error .outOfFuel, self)
  | fuel + 1, self => do
    match ← self.turn with
    | (.emit entry, self) => pure (.ok (some entry), self)
    | (.stop, self) => pure (.ok none, self)
    | (.fail err, self) => pure (.error (.upstream err), self)
    | (.again, self) => nextLoop fuel self

/-- The first pull: list the start directory, which may be missing but not fail. -/
def seed (self : SortedListing) : Listing (Except HdfsError SortedListing) := do
  let self := { self with startSeeded := true }
  match ← Prog.perform self.start with
  | .ok listing => pure (.ok (self.pushListing listing))
  | .error (.fileNotFound _) => pure (.ok { self with exhausted := true })
  | .error err => pure (.error err)

/-- `next_entry`. -/
def nextEntry (fuel : ℕ) (self : SortedListing) :
    Listing (Except ListError (Option ListEntry) × SortedListing) := do
  if self.exhausted then pure (.ok none, self)
  else if self.startSeeded then nextLoop fuel self
  else match ← self.seed with
    | .error err => pure (.error (.upstream err), self)
    | .ok self => if self.exhausted then pure (.ok none, self) else nextLoop fuel self

/-- The loop of `collect_page` and the probe after it. A limit of `none` is `usize::MAX`, which the
length of a vector never reaches. -/
def collectLoop (fuel : ℕ) (maxKeys : Option ℕ) : (rounds : ℕ) → SortedListing → List ListEntry →
    Listing (Except ListError (List ListEntry × Bool))
  | 0, _, _ => pure (.error .outOfFuel)
  | rounds + 1, self, page =>
    if some page.length = maxKeys then do
      let (result, _) ← self.nextEntry fuel
      pure (result.map fun entry => (page, entry.isSome))
    else do
      let (result, self) ← self.nextEntry fuel
      match result with
      | .error err => pure (.error err)
      | .ok (some entry) => collectLoop fuel maxKeys rounds self (page ++ [entry])
      | .ok none => pure (.ok (page, false))

/-- `collect_page`. -/
def collectPage (fuel : ℕ) (maxKeys : Option ℕ) (self : SortedListing) :
    Listing (Except ListError (List ListEntry × Bool)) :=
  if maxKeys = some 0 then pure (.ok ([], false))
  else collectLoop fuel maxKeys fuel self []

end SortedListing

end HdfsS3Gateway
