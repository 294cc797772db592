import Mathlib.Data.Nat.Notation
import Mathlib.Tactic.Basic
import Mathlib.Tactic.Cases

/-!
# Base64 with and without padding

The encodings of RFC 4648, over any alphabet that can be read back. Three bytes become four symbols
of six bits, and a shorter tail becomes two or three symbols. Decoding is strict: it refuses a
symbol outside the alphabet, a lone last symbol and non-zero trailing bits; the padded form also
refuses a length that is no multiple of four.
-/

namespace Base64

/-- Sixty-four symbols with their values, and the padding byte, which is no symbol. -/
structure Alphabet where
  symbol : ℕ → UInt8
  value : UInt8 → Option ℕ
  pad : UInt8
  value_symbol : ∀ i < 64, value (symbol i) = some i
  value_pad : value pad = none

namespace Alphabet

variable (a : Alphabet)

/-- The symbols of a sequence of bytes, without padding. -/
def encode : List UInt8 → List UInt8
  | [] => []
  | [x] => [a.symbol (x.toNat / 4), a.symbol (x.toNat % 4 * 16)]
  | [x, y] =>
    [a.symbol (x.toNat / 4), a.symbol (x.toNat % 4 * 16 + y.toNat / 16),
      a.symbol (y.toNat % 16 * 4)]
  | x :: y :: z :: rest =>
    a.symbol (x.toNat / 4) :: a.symbol (x.toNat % 4 * 16 + y.toNat / 16) ::
      a.symbol (y.toNat % 16 * 4 + z.toNat / 64) :: a.symbol (z.toNat % 64) :: encode rest

/-- The bytes of a sequence of symbols without padding. -/
def decode : List UInt8 → Option (List UInt8)
  | [] => some []
  | [_] => none
  | [s, t] => do
    let x ← a.value s
    let y ← a.value t
    if y % 16 = 0 then some [UInt8.ofNat (x * 4 + y / 16)] else none
  | [s, t, u] => do
    let x ← a.value s
    let y ← a.value t
    let z ← a.value u
    if z % 4 = 0 then
      some [UInt8.ofNat (x * 4 + y / 16), UInt8.ofNat (y % 16 * 16 + z / 4)]
    else none
  | s :: t :: u :: v :: rest => do
    let x ← a.value s
    let y ← a.value t
    let z ← a.value u
    let w ← a.value v
    let bytes ← decode rest
    some (UInt8.ofNat (x * 4 + y / 16) :: UInt8.ofNat (y % 16 * 16 + z / 4) ::
      UInt8.ofNat (z % 4 * 64 + w) :: bytes)

/-- Remove one padding byte from the end. -/
def stripPad (s : List UInt8) : List UInt8 := if s.getLast? = some a.pad then s.dropLast else s

/-- Encode with padding to a multiple of four. -/
def encodePadded (bytes : List UInt8) : List UInt8 :=
  a.encode bytes ++ List.replicate ((4 - (a.encode bytes).length % 4) % 4) a.pad

/-- Decode with padding. -/
def decodePadded (s : List UInt8) : Option (List UInt8) :=
  if s.length % 4 = 0 then a.decode (a.stripPad (a.stripPad s)) else none

/-! ## Round trips -/

/-- A byte is put together again from its two parts. -/
theorem ofNat_split (x : UInt8) {n : ℕ} (h : n = x.toNat) : UInt8.ofNat n = x := by
  rw [h, UInt8.ofNat_toNat]

/-- Decoding undoes encoding. -/
theorem decode_encode (bytes : List UInt8) : a.decode (a.encode bytes) = some bytes := by
  induction bytes using encode.induct with
  | case1 => rfl
  | case2 x =>
    have hx := x.toNat_lt
    have h1 := a.value_symbol (x.toNat / 4) (by omega)
    have h2 := a.value_symbol (x.toNat % 4 * 16) (by omega)
    have hbyte := ofNat_split x (n := x.toNat / 4 * 4 + x.toNat % 4 * 16 / 16) (by omega)
    simp only [encode, decode, h1, h2, Option.bind_eq_bind, Option.bind_some, hbyte]
    rw [if_pos (by omega)]
  | case3 x y =>
    have hx := x.toNat_lt
    have hy := y.toNat_lt
    have h1 := a.value_symbol (x.toNat / 4) (by omega)
    have h2 := a.value_symbol (x.toNat % 4 * 16 + y.toNat / 16) (by omega)
    have h3 := a.value_symbol (y.toNat % 16 * 4) (by omega)
    have hbyte1 := ofNat_split x
      (n := x.toNat / 4 * 4 + (x.toNat % 4 * 16 + y.toNat / 16) / 16) (by omega)
    have hbyte2 := ofNat_split y
      (n := (x.toNat % 4 * 16 + y.toNat / 16) % 16 * 16 + y.toNat % 16 * 4 / 4) (by omega)
    simp only [encode, decode, h1, h2, h3, Option.bind_eq_bind, Option.bind_some, hbyte1, hbyte2]
    rw [if_pos (by omega)]
  | case4 x y z rest ih =>
    have hx := x.toNat_lt
    have hy := y.toNat_lt
    have hz := z.toNat_lt
    have h1 := a.value_symbol (x.toNat / 4) (by omega)
    have h2 := a.value_symbol (x.toNat % 4 * 16 + y.toNat / 16) (by omega)
    have h3 := a.value_symbol (y.toNat % 16 * 4 + z.toNat / 64) (by omega)
    have h4 := a.value_symbol (z.toNat % 64) (by omega)
    have hbyte1 := ofNat_split x
      (n := x.toNat / 4 * 4 + (x.toNat % 4 * 16 + y.toNat / 16) / 16) (by omega)
    have hbyte2 := ofNat_split y (n := (x.toNat % 4 * 16 + y.toNat / 16) % 16 * 16 +
      (y.toNat % 16 * 4 + z.toNat / 64) / 4) (by omega)
    have hbyte3 := ofNat_split z
      (n := (y.toNat % 16 * 4 + z.toNat / 64) % 4 * 64 + z.toNat % 64) (by omega)
    simp only [encode, decode, h1, h2, h3, h4, ih, Option.bind_eq_bind, Option.bind_some, hbyte1,
      hbyte2, hbyte3]

/-- An encoding consists of symbols only. -/
theorem mem_encode {bytes : List UInt8} {c : UInt8} (h : c ∈ a.encode bytes) :
    ∃ i < 64, c = a.symbol i := by
  induction bytes using encode.induct with
  | case1 => contradiction
  | case2 x =>
    have hx := x.toNat_lt
    simp only [encode, List.mem_cons, List.not_mem_nil, or_false] at h
    rcases h with h | h <;> exact ⟨_, by omega, h⟩
  | case3 x y =>
    have hx := x.toNat_lt
    have hy := y.toNat_lt
    simp only [encode, List.mem_cons, List.not_mem_nil, or_false] at h
    rcases h with h | h | h <;> exact ⟨_, by omega, h⟩
  | case4 x y z rest ih =>
    have hx := x.toNat_lt
    have hy := y.toNat_lt
    have hz := z.toNat_lt
    simp only [encode, List.mem_cons] at h
    rcases h with h | h | h | h | h
    · exact ⟨_, by omega, h⟩
    · exact ⟨_, by omega, h⟩
    · exact ⟨_, by omega, h⟩
    · exact ⟨_, by omega, h⟩
    · exact ih h

/-- So it never ends in padding. -/
theorem getLast?_encode_ne_pad (bytes : List UInt8) : (a.encode bytes).getLast? ≠ some a.pad := by
  intro hlast
  obtain ⟨i, hi, heq⟩ := a.mem_encode (List.mem_of_getLast? hlast)
  have hvalue := a.value_symbol i hi
  rw [← heq, a.value_pad] at hvalue
  contradiction

/-- The length of an encoding is never one more than a multiple of four. -/
theorem length_encode_mod (bytes : List UInt8) : (a.encode bytes).length % 4 ≠ 1 := by
  induction bytes using encode.induct with
  | case1 => simp [encode]
  | case2 x => simp [encode]
  | case3 x y => simp [encode]
  | case4 x y z rest ih =>
    simp only [encode, List.length_cons]
    omega

/-- Without padding at the end there is nothing to strip. -/
theorem stripPad_of_ne {s : List UInt8} (h : s.getLast? ≠ some a.pad) : a.stripPad s = s :=
  if_neg h

/-- Stripping removes the padding byte that was appended. -/
theorem stripPad_append_pad (s : List UInt8) : a.stripPad (s ++ [a.pad]) = s := by
  rw [stripPad, if_pos List.getLast?_concat, List.dropLast_concat]

/-- Decoding undoes encoding, with padding. -/
theorem decodePadded_encodePadded (bytes : List UInt8) :
    a.decodePadded (a.encodePadded bytes) = some bytes := by
  have hmod := a.length_encode_mod bytes
  have hlast := a.getLast?_encode_ne_pad bytes
  have hstrip : a.stripPad (a.stripPad (a.encodePadded bytes)) = a.encode bytes := by
    unfold encodePadded
    have hcases : (a.encode bytes).length % 4 = 0 ∨ (a.encode bytes).length % 4 = 2 ∨
        (a.encode bytes).length % 4 = 3 := by omega
    rcases hcases with h | h | h <;> rw [h]
    · rw [show (4 - 0) % 4 = 0 from rfl, List.replicate_zero, List.append_nil,
        a.stripPad_of_ne hlast, a.stripPad_of_ne hlast]
    · rw [show List.replicate ((4 - 2) % 4) a.pad = [a.pad] ++ [a.pad] from rfl, ← List.append_assoc,
        a.stripPad_append_pad, a.stripPad_append_pad]
    · rw [show List.replicate ((4 - 3) % 4) a.pad = [a.pad] from rfl, a.stripPad_append_pad,
        a.stripPad_of_ne hlast]
  rw [decodePadded, if_pos, hstrip, decode_encode]
  rw [encodePadded, List.length_append, List.length_replicate]
  omega

/-! ## What is accepted -/

/-- Only the symbols have a value, each its own. -/
structure Strict : Prop where
  symbol_value : ∀ c i, a.value c = some i → i < 64 ∧ a.symbol i = c

variable {a}

/-- Whatever is decoded is the encoding of the result. -/
theorem encode_decode (hstrict : a.Strict) {s bytes : List UInt8} (h : a.decode s = some bytes) :
    a.encode bytes = s := by
  induction s using decode.induct generalizing bytes with
  | case1 =>
    obtain rfl := Option.some.inj h
    rfl
  | case2 => contradiction
  | case3 s t =>
    simp only [decode, Option.bind_eq_bind, Option.bind_eq_some_iff, Option.ite_none_right_eq_some,
      Option.some.injEq] at h
    obtain ⟨x, hx, y, hy, hzero, rfl⟩ := h
    obtain ⟨hx, rfl⟩ := hstrict.symbol_value s x hx
    obtain ⟨hy, rfl⟩ := hstrict.symbol_value t y hy
    have hbyte := UInt8.toNat_ofNat_of_lt' (show x * 4 + y / 16 < 256 by omega)
    rw [encode, hbyte]
    congr 3 <;> omega
  | case4 s t u =>
    simp only [decode, Option.bind_eq_bind, Option.bind_eq_some_iff, Option.ite_none_right_eq_some,
      Option.some.injEq] at h
    obtain ⟨x, hx, y, hy, z, hz, hzero, rfl⟩ := h
    obtain ⟨hx, rfl⟩ := hstrict.symbol_value s x hx
    obtain ⟨hy, rfl⟩ := hstrict.symbol_value t y hy
    obtain ⟨hz, rfl⟩ := hstrict.symbol_value u z hz
    have hbyte1 := UInt8.toNat_ofNat_of_lt' (show x * 4 + y / 16 < 256 by omega)
    have hbyte2 := UInt8.toNat_ofNat_of_lt' (show y % 16 * 16 + z / 4 < 256 by omega)
    rw [encode, hbyte1, hbyte2]
    congr 4 <;> omega
  | case5 s t u v rest ih =>
    simp only [decode, Option.bind_eq_bind, Option.bind_eq_some_iff, Option.some.injEq] at h
    obtain ⟨x, hx, y, hy, z, hz, w, hw, bytes, hrest, rfl⟩ := h
    obtain ⟨hx, rfl⟩ := hstrict.symbol_value s x hx
    obtain ⟨hy, rfl⟩ := hstrict.symbol_value t y hy
    obtain ⟨hz, rfl⟩ := hstrict.symbol_value u z hz
    obtain ⟨hw, rfl⟩ := hstrict.symbol_value v w hw
    have hbyte1 := UInt8.toNat_ofNat_of_lt' (show x * 4 + y / 16 < 256 by omega)
    have hbyte2 := UInt8.toNat_ofNat_of_lt' (show y % 16 * 16 + z / 4 < 256 by omega)
    have hbyte3 := UInt8.toNat_ofNat_of_lt' (show z % 4 * 64 + w < 256 by omega)
    rw [encode, hbyte1, hbyte2, hbyte3, ih hrest]
    congr 5 <;> omega

/-- Stripping removes at most one byte, a padding byte. -/
theorem stripPad_append (s : List UInt8) :
    ∃ n ≤ 1, s = a.stripPad s ++ List.replicate n a.pad := by
  unfold stripPad
  split
  · rename_i hlast
    obtain ⟨init, rfl⟩ := List.getLast?_eq_some_iff.mp hlast
    exact ⟨1, Nat.le_refl _, by rw [List.dropLast_concat]; rfl⟩
  · exact ⟨0, Nat.zero_le _, (List.append_nil s).symm⟩

/-- Whatever is decoded with padding is the padded encoding of the result. -/
theorem encodePadded_decodePadded (hstrict : a.Strict) {s bytes : List UInt8}
    (h : a.decodePadded s = some bytes) : a.encodePadded bytes = s := by
  rw [decodePadded] at h
  split at h
  · rename_i hlen
    have hencode := encode_decode hstrict h
    obtain ⟨m, hm, hs⟩ := a.stripPad_append s
    obtain ⟨n, hn, hs'⟩ := a.stripPad_append (a.stripPad s)
    rw [← hencode] at hs'
    rw [hs', List.append_assoc, List.replicate_append_replicate] at hs
    -- the number of padding bytes follows from the length
    have hmod := a.length_encode_mod bytes
    have htotal := congrArg List.length hs
    rw [List.length_append, List.length_replicate] at htotal
    have hcount : (4 - (a.encode bytes).length % 4) % 4 = n + m := by omega
    rw [encodePadded, hcount, ← hs]
  · contradiction

/-- Two alphabets whose symbols agree where both have a value decode alike what both accept. -/
theorem decode_agree {b : Alphabet}
    (hagree : ∀ c i j, a.value c = some i → b.value c = some j → i = j) {s x y : List UInt8}
    (hx : a.decode s = some x) (hy : b.decode s = some y) : x = y := by
  induction s using decode.induct generalizing x y with
  | case1 => exact Option.some.inj (hx.symm.trans hy)
  | case2 => contradiction
  | case3 s t =>
    simp only [decode, Option.bind_eq_bind, Option.bind_eq_some_iff, Option.ite_none_right_eq_some,
      Option.some.injEq] at hx hy
    obtain ⟨i, hi, j, hj, -, rfl⟩ := hx
    obtain ⟨i', hi', j', hj', -, rfl⟩ := hy
    rw [hagree s i i' hi hi', hagree t j j' hj hj']
  | case4 s t u =>
    simp only [decode, Option.bind_eq_bind, Option.bind_eq_some_iff, Option.ite_none_right_eq_some,
      Option.some.injEq] at hx hy
    obtain ⟨i, hi, j, hj, k, hk, -, rfl⟩ := hx
    obtain ⟨i', hi', j', hj', k', hk', -, rfl⟩ := hy
    rw [hagree s i i' hi hi', hagree t j j' hj hj', hagree u k k' hk hk']
  | case5 s t u v rest ih =>
    simp only [decode, Option.bind_eq_bind, Option.bind_eq_some_iff, Option.some.injEq] at hx hy
    obtain ⟨i, hi, j, hj, k, hk, l, hl, x, hx, rfl⟩ := hx
    obtain ⟨i', hi', j', hj', k', hk', l', hl', y, hy, rfl⟩ := hy
    rw [hagree s i i' hi hi', hagree t j j' hj hj', hagree u k k' hk hk', hagree v l l' hl hl',
      ih hx hy]

/-- What decodes without padding does not end in padding. -/
theorem encodePadded_of_decode {b : Alphabet} (hstrict : a.Strict) (hpad : b.pad = a.pad)
    {bytes x : List UInt8} (h : a.decode (b.encodePadded bytes) = some x) :
    b.encodePadded bytes = b.encode bytes := by
  have hlast := a.getLast?_encode_ne_pad x
  rw [encode_decode hstrict h, ← hpad, encodePadded] at hlast
  rw [encodePadded]
  cases hcount : (4 - (b.encode bytes).length % 4) % 4 with
  | zero => exact List.append_nil _
  | succ n =>
    rw [hcount, List.replicate_succ', ← List.append_assoc, List.getLast?_concat] at hlast
    contradiction

end Alphabet

/-! ## The two alphabets of RFC 4648 -/

/-- The letters and digits, and two more symbols. -/
def symbolOf (plus slash : UInt8) (i : ℕ) : UInt8 :=
  if i < 26 then UInt8.ofNat (i + 65)
  else if i < 52 then UInt8.ofNat (i + 71)
  else if i < 62 then UInt8.ofNat (i - 4)
  else if i = 62 then plus
  else slash

/-- The value of a symbol. -/
def valueOf (plus slash : UInt8) (c : UInt8) : Option ℕ :=
  if 65 ≤ c ∧ c ≤ 90 then some (c.toNat - 65)
  else if 97 ≤ c ∧ c ≤ 122 then some (c.toNat - 71)
  else if 48 ≤ c ∧ c ≤ 57 then some (c.toNat + 4)
  else if c = plus then some 62
  else if c = slash then some 63
  else none

/-- The standard alphabet, with `+` and `/`. -/
def standard : Alphabet where
  symbol := symbolOf 43 47
  value := valueOf 43 47
  pad := 61
  value_symbol := by decide
  value_pad := by decide

/-- The URL-safe alphabet, with `-` and `_`. -/
def urlSafe : Alphabet where
  symbol := symbolOf 45 95
  value := valueOf 45 95
  pad := 61
  value_symbol := by decide
  value_pad := by decide

/-- A property of every byte, checked value by value. -/
theorem uint8_all {p : UInt8 → Prop} (h : ∀ n < 256, p (UInt8.ofNat n)) (c : UInt8) : p c := by
  have hc := h c.toNat c.toNat_lt
  rwa [UInt8.ofNat_toNat] at hc

theorem standard_strict : standard.Strict where
  symbol_value := by
    have hall := uint8_all (p := fun c => ∀ i ∈ standard.value c, i < 64 ∧ standard.symbol i = c)
      (by decide +kernel)
    exact fun c i h => hall c i h

theorem urlSafe_strict : urlSafe.Strict where
  symbol_value := by
    have hall := uint8_all (p := fun c => ∀ i ∈ urlSafe.value c, i < 64 ∧ urlSafe.symbol i = c)
      (by decide +kernel)
    exact fun c i h => hall c i h

/-- The two alphabets share the values of the letters and digits. -/
theorem value_agree (c : UInt8) (i j : ℕ) (hi : urlSafe.value c = some i)
    (hj : standard.value c = some j) : i = j := by
  have hall := uint8_all
    (p := fun c => ∀ i ∈ urlSafe.value c, ∀ j ∈ standard.value c, i = j) (by decide +kernel)
  exact hall c i hi j hj

/-- The URL-safe symbols are letters, digits, `-` and `_`. -/
theorem urlSafe_symbol : ∀ i < 64, (65 ≤ urlSafe.symbol i ∧ urlSafe.symbol i ≤ 90) ∨
    (97 ≤ urlSafe.symbol i ∧ urlSafe.symbol i ≤ 122) ∨
    (48 ≤ urlSafe.symbol i ∧ urlSafe.symbol i ≤ 57) ∨
    urlSafe.symbol i = 45 ∨ urlSafe.symbol i = 95 := by
  decide +kernel

-- the test vectors of RFC 4648 for "fooba"
example : standard.encodePadded [102, 111, 111, 98, 97] = [90, 109, 57, 118, 89, 109, 69, 61] := by
  decide

end Base64
