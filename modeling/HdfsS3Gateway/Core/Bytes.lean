import HdfsS3Gateway.Library.Lexicographic

/-!
# Rust strings as their UTF-8 bytes

Keys, paths, prefixes, delimiters and tokens are compared, split and sliced byte by byte in the
source, so a `String` or `&str` is modelled by its bytes. Every list of bytes is allowed here,
which only adds inputs to those a Rust string can hold; where the source checks that bytes are
UTF-8, so does the model.
-/

namespace HdfsS3Gateway

instance instLinearOrderUInt8 : LinearOrder UInt8 where
  le_refl _ := UInt8.le_refl _
  le_trans _ _ _ := UInt8.le_trans
  lt_iff_le_not_ge a b := by
    rw [UInt8.lt_iff_toNat_lt, UInt8.le_iff_toNat_le, UInt8.le_iff_toNat_le]
    omega
  le_antisymm _ _ := UInt8.le_antisymm
  le_total a b := by
    rw [UInt8.le_iff_toNat_le, UInt8.le_iff_toNat_le]
    omega
  toDecidableLE := inferInstance

/-- A Rust string, as its UTF-8 bytes. -/
abbrev Str := List UInt8

/-- The separator byte `b'/'`. -/
def slash : UInt8 := 0x2F

/-- The string `"."`. -/
def dot : Str := [0x2E]

/-- The string `".."`. -/
def dotdot : Str := [0x2E, 0x2E]

/-- `s.starts_with(p)`. -/
def startsWith (s p : Str) : Bool := p.isPrefixOf s

@[simp] theorem startsWith_iff (s p : Str) : startsWith s p = true ↔ p <+: s :=
  List.isPrefixOf_iff_prefix

/-- `parts.join("/")`. -/
def joinSlash (parts : List Str) : Str := List.intercalate [slash] parts

/-- `s.split('/')`. -/
def splitSlash (s : Str) : List Str := s.splitOn slash

/-- `s.rfind('/')`: the index of the last separator. -/
def rfindSlash : Str → Option ℕ
  | [] => none
  | b :: s =>
    match rfindSlash s with
    | some i => some (i + 1)
    | none => if b = slash then some 0 else none

@[simp] theorem splitSlash_nil : splitSlash [] = [[]] := rfl

/-- Splitting at a separator that is already there splits both sides. -/
theorem splitSlash_append (a b : Str) :
    splitSlash (a ++ slash :: b) = splitSlash a ++ splitSlash b := List.splitOn_append_cons_self a b

/-- A leading separator contributes an empty first segment. -/
@[simp] theorem splitSlash_slash_cons (s : Str) : splitSlash (slash :: s) = [] :: splitSlash s :=
  splitSlash_append [] s

/-- Splitting never returns an empty list. -/
theorem splitSlash_ne_nil (s : Str) : splitSlash s ≠ [] := List.splitOn_ne_nil slash s

/-- Splitting is inverse to joining segments without separators. -/
theorem splitSlash_joinSlash {parts : List Str} (h : ∀ s ∈ parts, slash ∉ s) (hne : parts ≠ []) :
    splitSlash (joinSlash parts) = parts := List.splitOn_intercalate slash h hne

/-- Joining the segments of a string gives the string back. -/
theorem joinSlash_splitSlash (s : Str) : joinSlash (splitSlash s) = s := List.intercalate_splitOn slash

@[simp] theorem joinSlash_nil : joinSlash [] = [] := rfl

@[simp] theorem joinSlash_singleton (s : Str) : joinSlash [s] = s := by
  simp [joinSlash, List.intercalate]

/-- Joining puts one separator between the first segment and the rest. -/
theorem joinSlash_cons (s : Str) {parts : List Str} (hne : parts ≠ []) :
    joinSlash (s :: parts) = s ++ slash :: joinSlash parts := by
  cases parts with
  | nil => contradiction
  | cons t parts => simp [joinSlash, List.intercalate]

/-- Joining two nonempty lists of segments puts one separator between them. -/
theorem joinSlash_append {xs ys : List Str} (hx : xs ≠ []) (hy : ys ≠ []) :
    joinSlash (xs ++ ys) = joinSlash xs ++ slash :: joinSlash ys := by
  induction xs with
  | nil => contradiction
  | cons x xs ih =>
    by_cases hxs : xs = []
    · subst hxs
      rw [List.singleton_append, joinSlash_cons _ hy, joinSlash_singleton]
    · rw [List.cons_append, joinSlash_cons _ (by simp [hxs]), joinSlash_cons _ hxs, ih hxs]
      simp

/-- No segment of a split contains the separator. -/
theorem slash_not_mem_of_mem_splitSlash {s seg : Str} (h : seg ∈ splitSlash s) : slash ∉ seg := by
  induction s generalizing seg with
  | nil =>
    rw [splitSlash_nil, List.mem_singleton] at h
    simp [h]
  | cons b s ih =>
    by_cases hb : b = slash
    · subst hb
      rw [splitSlash_slash_cons, List.mem_cons] at h
      rcases h with rfl | h
      · exact List.not_mem_nil
      · exact ih h
    · -- the first byte joins the first segment of the rest
      obtain ⟨x, xs, hx⟩ := List.exists_cons_of_ne_nil (splitSlash_ne_nil s)
      have hcons : splitSlash (b :: s) = (b :: x) :: xs := by
        rw [splitSlash, List.splitOn_cons_eq_if_modifyHead, if_neg (by simpa using hb)]
        exact congrArg (List.modifyHead (List.cons b)) hx
      rw [hcons, List.mem_cons] at h
      rcases h with rfl | h
      · have hxs := ih (hx ▸ List.mem_cons_self : x ∈ splitSlash s)
        simp [hxs, Ne.symm hb]
      · exact ih (hx ▸ List.mem_cons_of_mem _ h)

/-- Without a separator there is no last separator. -/
theorem rfindSlash_eq_none_iff (s : Str) : rfindSlash s = none ↔ slash ∉ s := by
  induction s with
  | nil => simp [rfindSlash]
  | cons b s ih =>
    cases h : rfindSlash s with
    | some i =>
      have hmem : slash ∈ s := by
        by_contra hn
        simp [ih.mpr hn] at h
      simp [rfindSlash, h, hmem]
    | none =>
      have hn := ih.mp h
      by_cases hb : b = slash <;> simp [rfindSlash, h, hn, hb, eq_comm]

/-- The last separator is the one that no later separator follows. -/
theorem rfindSlash_append {t : Str} (h : slash ∉ t) (a : Str) :
    rfindSlash (a ++ slash :: t) = some a.length := by
  induction a with
  | nil => simp [rfindSlash, (rfindSlash_eq_none_iff t).mpr h]
  | cons b a ih => simp [rfindSlash, ih]

end HdfsS3Gateway
