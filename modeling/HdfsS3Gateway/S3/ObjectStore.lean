import HdfsS3Gateway.S3.Preconditions
import HdfsS3Gateway.S3.Tiling

/-!
# The object store that the gateway shows

What the gateway is for, without directories, caches and calls: a bucket of objects, each with a key,
a size, a modification time and its bytes. A key finds an object or nothing, a range asks for a set of
byte positions, and a listing shows the objects by key.

The store is given by the set of its objects, so that what a listing shows is what a key finds: a
listed object is found under its key, and a found one is in every listing that should hold it.
-/

namespace HdfsS3Gateway

open Interaction

/-! ## Objects -/

/-- A stored object with its bytes. -/
structure StoredObject where
  size : UInt64
  modified : UInt64
  content : List UInt8
  whole : content.length = size.toNat

namespace StoredObject

variable (o : StoredObject)

/-- The entity tag of an object. -/
def eTag : ETag := .strong (fallbackEtag o.size o.modified)

/-- The date of an object. -/
def lastModified : Timestamp := millisToTimestamp o.modified

/-- The bytes of an object at the positions that a range asks for; without a range all of them. -/
def requested : Option Range → List UInt8 → Prop
  | none, bytes => bytes = o.content
  | some range, bytes => bytes ≠ [] ∧ ∃ s e, bytes = (o.content.take e).drop s ∧
      ∀ i, s ≤ i ∧ i < e ↔ (Range.toByteRange range).requested o.size.toNat i ∧ i < o.size.toNat

end StoredObject

/-! ## Stores -/

/-- A bucket: its objects, the directories that group them, the prefixes that can be listed, and what
a key finds. Every object is found under its own key, and a canonical key finds only that. -/
structure ObjectStore where
  bucket : Str
  objects : List ListEntry
  dirs : List Str
  listable : Str → Prop
  find : Str → Option StoredObject
  mem_objects : ∀ e, e ∈ objects ↔ CanonicalKey e.key ∧
    ∃ o, find e.key = some o ∧ o.size = e.size ∧ o.modified = e.modificationTime

namespace ObjectStore

variable (store : ObjectStore)

/-- The object that a request is about, or the error that it is refused with. -/
def select (bucket key : Str) (c : Conditions) : Except S3Error StoredObject :=
  if bucket ≠ store.bucket then .error { code := .noSuchBucket }
  else match store.find key with
    | none => .error { code := .noSuchKey }
    | some o =>
      if c.Blocked o.eTag o.lastModified then .error { code := .preconditionFailed }
      else if c.Stale o.eTag o.lastModified then .error { code := .notModified }
      else .ok o

/-- The answer to a HEAD. -/
def HeadAnswer (input : HeadObjectInput) (r : Except S3Error HeadObjectOutput) : Prop :=
  match store.select input.bucket input.key input.conditions with
  | .error e => r = .error e
  | .ok o => ∃ out, r = .ok out ∧ out.contentLength = o.size.toInt64 ∧ out.eTag = o.eTag ∧
      out.lastModified = o.lastModified

/-- The answer to a GET: the requested bytes, from the first one on as far as the client polls. -/
def GetAnswer (input : GetObjectInput) (r : Except S3Error (GetObject × Body)) : Prop :=
  match store.select input.bucket input.key input.conditions with
  | .error e => r = .error e
  | .ok o => r = .error { code := .invalidRange } ∧ (∀ bytes, ¬ o.requested input.range bytes) ∨
      ∃ bytes object body, o.requested input.range bytes ∧ r = .ok (object, body) ∧
        object.output.contentLength = (UInt64.ofNat bytes.length).toInt64 ∧
        object.output.eTag = o.eTag ∧ object.output.lastModified = o.lastModified ∧
        BytesStream.NoError body.items ∧ BytesStream.bytesBeforeError body.items <+: bytes ∧
        (body.ended = true → BytesStream.bytesBeforeError body.items = bytes)

/-- The answer to a listing: the first outputs after the marker. -/
def ListAnswer (args : ListArgs) (r : Except ListFailure ListObjectsV2Output) : Prop :=
  ∃ outputs out, Ascending outputs ∧
    (∀ x, x ∈ outputs ↔ store.listable args.pre ∧
      IsOutput store.objects store.dirs args.pre args.delimiter x) ∧
    r = .ok out ∧
    out.items = ((retain Output.key args.startAfter outputs).take args.maxKeys).map Output.item ∧
    (out.isTruncated = true ↔
      args.maxKeys ≠ 0 ∧ args.maxKeys < (retain Output.key args.startAfter outputs).length)

/-- The answer to a listing, with its arguments as the gateway reads them. -/
def ListInputAnswer (self : HdfsGateway) (input : ListObjectsV2Input)
    (r : Except ListFailure ListObjectsV2Output) : Prop :=
  match self.listArgs input with
  | .error e => r = .error (.response e)
  | .ok args => store.ListAnswer args r

/-- The store's answer to a request. -/
def Answers (self : HdfsGateway) : S3Request → Response → Prop
  | .headObject input, .headObject r => store.HeadAnswer input r
  | .getObject input _, .getObject r => store.GetAnswer input r
  | .listObjectsV2 input _, .listObjectsV2 r => store.ListInputAnswer self input r
  | _, _ => False

variable {store} {args : ListArgs} {out : ListObjectsV2Output} {key : Str} {o : StoredObject}

/-- Without conditions a request gets what its key finds. -/
theorem select_of_find (hfind : store.find key = some o) : store.select store.bucket key {} = .ok o := by
  simp [select, hfind, Conditions.Blocked, Conditions.Stale]

/-- A listed object is what its key finds. -/
theorem ListAnswer.found (h : store.ListAnswer args (.ok out)) {obj : Object}
    (hobj : .inl obj ∈ out.items) : ∃ o, store.find obj.key = some o ∧ obj.size = o.size.toInt64 ∧
      obj.eTag = o.eTag ∧ obj.lastModified = o.lastModified := by
  obtain ⟨outputs, out', -, hmem, heq, hitems, -⟩ := h
  obtain rfl := Except.ok.inj heq
  rw [hitems] at hobj
  obtain ⟨x, hx, hitem⟩ := List.mem_map.mp hobj
  cases x with
  | inl e =>
    obtain ⟨-, he, -⟩ := (hmem _).mp (mem_retain.mp (List.mem_of_mem_take hx)).1
    obtain ⟨-, o, hfind, hsize, hmodified⟩ := (store.mem_objects e).mp he
    obtain rfl := Sum.inl.inj hitem
    refine ⟨o, hfind, congrArg UInt64.toInt64 hsize.symm, ?_, ?_⟩
    · rw [StoredObject.eTag, hsize, hmodified]
      rfl
    · rw [StoredObject.lastModified, hmodified]
      rfl
  | inr p => contradiction

/-- An object after the marker that matches the prefix is in a flat listing that is not cut. -/
theorem ListAnswer.lists (h : store.ListAnswer args (.ok out)) (hdelim : args.delimiter = none)
    (hmax : args.maxKeys ≠ 0) (hall : out.isTruncated = false) (hlistable : store.listable args.pre)
    (hkey : CanonicalKey key) (hfind : store.find key = some o) (hpre : args.pre <+: key)
    (hafter : ∀ m, args.startAfter = some m → m < key) :
    ∃ obj, .inl obj ∈ out.items ∧ obj.key = key ∧ obj.eTag = o.eTag := by
  obtain ⟨outputs, out', -, hmem, heq, hitems, htruncated⟩ := h
  obtain rfl := Except.ok.inj heq
  have hobject : (⟨key, o.size, o.modified⟩ : ListEntry) ∈ store.objects :=
    (store.mem_objects _).mpr ⟨hkey, o, hfind, rfl, rfl⟩
  have hretained : Sum.inl (⟨key, o.size, o.modified⟩ : ListEntry) ∈
      retain Output.key args.startAfter outputs :=
    mem_retain.mpr ⟨(hmem _).mpr ⟨hlistable, hobject, hpre, by simp [hdelim]⟩, hafter⟩
  have hlen : (retain Output.key args.startAfter outputs).length ≤ args.maxKeys := by
    by_contra hmore
    rw [htruncated.mpr ⟨hmax, Nat.lt_of_not_le hmore⟩] at hall
    contradiction
  refine ⟨listedObject ⟨key, o.size, o.modified⟩, ?_, rfl, rfl⟩
  rw [hitems, List.take_of_length_le hlen]
  exact List.mem_map_of_mem hretained

end ObjectStore

end HdfsS3Gateway
