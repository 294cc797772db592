import Mathlib.Data.List.Basic

/-!
# UTF-8 and character boundaries

Bytes are valid UTF-8 if they are the encodings of some characters, one after the other. The first
byte of an encoding tells it from every later byte, so a sequence of characters can be cut where a
character starts, and both parts are valid.
-/

namespace Utf8

/-- The bytes of a sequence of characters. -/
def encode (cs : List Char) : List UInt8 := cs.flatMap String.utf8EncodeChar

/-- Bytes that encode some characters. -/
def Valid (s : List UInt8) : Prop := ∃ cs, s = encode cs

theorem valid_nil : Valid [] := ⟨[], rfl⟩

/-- Valid parts make a valid whole. -/
theorem Valid.append {a b : List UInt8} (ha : Valid a) (hb : Valid b) : Valid (a ++ b) := by
  obtain ⟨cs, rfl⟩ := ha
  obtain ⟨ds, rfl⟩ := hb
  exact ⟨cs ++ ds, by simp [encode]⟩

/-- This is the validity of byte arrays. -/
theorem isValidUTF8_iff (s : List UInt8) : ByteArray.IsValidUTF8 ⟨s.toArray⟩ ↔ Valid s := by
  have hbytes : ∀ l : List UInt8, l.toByteArray = ⟨l.toArray⟩ := fun l =>
    ByteArray.ext List.data_toByteArray
  constructor
  · rintro ⟨cs, h⟩
    rw [List.utf8Encode, hbytes, ByteArray.mk.injEq] at h
    exact ⟨cs, List.toArray_inj h⟩
  · rintro ⟨cs, rfl⟩
    rw [encode, ← hbytes]
    exact ⟨cs, rfl⟩

/-- After a character the rest of a valid sequence is valid. -/
theorem valid_of_char_append {c : Char} {b : List UInt8}
    (h : Valid (String.utf8EncodeChar c ++ b)) : Valid b := by
  have hbytes : ∀ l : List UInt8, l.toByteArray = ⟨l.toArray⟩ := fun l =>
    ByteArray.ext List.data_toByteArray
  rw [← isValidUTF8_iff, ← hbytes] at h ⊢
  rw [List.toByteArray_append, ← List.utf8Encode_singleton,
    ByteArray.isValidUTF8_utf8Encode_singleton_append_iff] at h
  exact h

/-- After a valid part the rest of a valid sequence is valid. -/
theorem Valid.right {a b : List UInt8} (ha : Valid a) (h : Valid (a ++ b)) : Valid b := by
  obtain ⟨cs, rfl⟩ := ha
  induction cs with
  | nil => exact h
  | cons c cs ih =>
    rw [encode, List.flatMap_cons, List.append_assoc] at h
    exact ih (valid_of_char_append h)

/-- In an encoded character only the first byte looks like one. -/
theorem firstByte_iff {c : Char} {a rest : List UInt8} {x : UInt8}
    (h : String.utf8EncodeChar c = a ++ x :: rest) : x.IsUTF8FirstByte ↔ a = [] := by
  have hlt : a.length < (String.utf8EncodeChar c).length := by simp [h]
  have hbyte : (String.utf8EncodeChar c)[a.length] = x := by simp [h]
  rw [← hbyte, UInt8.isUTF8FirstByte_getElem_utf8EncodeChar, List.length_eq_zero_iff]

/-- A valid sequence starts with a first byte. -/
theorem Valid.firstByte {x : UInt8} {rest : List UInt8} (h : Valid (x :: rest)) :
    x.IsUTF8FirstByte := by
  obtain ⟨cs, hcs⟩ := h
  cases cs with
  | nil => contradiction
  | cons c cs =>
    obtain ⟨y, ys, hy⟩ := List.exists_cons_of_ne_nil (@String.utf8EncodeChar_ne_nil c)
    rw [encode, List.flatMap_cons, hy, List.cons_append] at hcs
    rw [(List.cons.inj hcs).1]
    exact (@firstByte_iff c [] ys y hy).mpr rfl

/-- A valid sequence that is cut before a first byte, or at its end, is valid up to the cut. -/
theorem Valid.left {a b : List UInt8} (h : Valid (a ++ b))
    (hb : ∀ x rest, b = x :: rest → x.IsUTF8FirstByte) : Valid a := by
  obtain ⟨cs, hcs⟩ := h
  induction cs generalizing a with
  | nil =>
    rw [(List.append_eq_nil_iff.mp hcs).1]
    exact valid_nil
  | cons c cs ih =>
    rw [encode, List.flatMap_cons, List.append_eq_append_iff] at hcs
    rcases hcs with ⟨mid, hmid, hrest⟩ | ⟨mid, rfl, hrest⟩
    · cases mid with
      | nil => exact ⟨[c], by simpa [encode] using hmid.symm⟩
      | cons x mid =>
        -- the cut is at the start of the character
        rw [(firstByte_iff hmid).mp (hb x _ hrest)]
        exact valid_nil
    · exact Valid.append ⟨[c], by simp [encode]⟩ (ih hrest.symm)

/-- A valid sequence is valid up to any place where a valid part is found in it. -/
theorem Valid.before {a d b : List UInt8} (h : Valid (a ++ (d ++ b))) (hd : Valid d) (hne : d ≠ []) :
    Valid a := by
  apply h.left
  intro x rest hx
  obtain ⟨y, ys, rfl⟩ := List.exists_cons_of_ne_nil hne
  rw [← (List.cons.inj hx).1]
  exact hd.firstByte

end Utf8
