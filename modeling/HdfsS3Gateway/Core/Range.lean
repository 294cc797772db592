import HdfsS3Gateway.Library.Overflow
import Mathlib.Tactic.Basic

/-!
# Byte-range resolution

The three HTTP range shapes, resolved against a file length on `u64` arithmetic. The specification
is the set of requested byte positions: a range resolves exactly when that set meets the file, and
then to the half-open window of the positions it has in common with the file, without overflow.
-/

namespace HdfsS3Gateway

open Overflow

/-- `ByteRange`: a parsed range request. -/
inductive ByteRange
  | «from» (first : UInt64)
  | inclusive (first last : UInt64)
  | suffix (length : UInt64)
  deriving DecidableEq, Repr

/-- `resolve_range`: the window `(start, end_exclusive)` of a satisfiable range. -/
def resolveRange (fileLen : UInt64) : ByteRange → Tracked (Option (UInt64 × UInt64))
  | .from first =>
    if first ≥ fileLen then pure none
    else pure (some (first, fileLen))
  | .inclusive first last =>
    if first ≥ fileLen then pure none
    else do
      let last := min last (← subU64 fileLen 1)
      if first > last then pure none
      else pure (some (first, ← addU64 last 1))
  | .suffix length =>
    if length = 0 then pure none
    else do
      let length := min length fileLen
      if length = 0 then pure none
      else pure (some (← subU64 fileLen length, fileLen))

/-- The byte positions a range asks for, in a file of the given length. -/
def ByteRange.requested (fileLen : ℕ) : ByteRange → ℕ → Prop
  | .from first, i => first.toNat ≤ i
  | .inclusive first last, i => first.toNat ≤ i ∧ i ≤ last.toNat
  | .suffix length, i => fileLen - length.toNat ≤ i ∧ i < fileLen

/-- The smaller of two machine numbers is the smaller of their values. -/
theorem toNat_min (a b : UInt64) : (min a b).toNat = min a.toNat b.toNat := by
  change (if a ≤ b then a else b).toNat = _
  split
  · rename_i h
    rw [Nat.min_eq_left (UInt64.le_iff_toNat_le.mp h)]
  · rename_i h
    rw [UInt64.le_iff_toNat_le] at h
    omega

/-- The last position of a nonempty file. -/
theorem toNat_sub_one {a : UInt64} (h : 0 < a.toNat) : (a - 1).toNat = a.toNat - 1 :=
  UInt64.toNat_sub_of_le _ _ (UInt64.le_iff_toNat_le.mpr h)

/-- A machine number is zero exactly when its value is. -/
theorem eq_zero_iff_toNat (a : UInt64) : a = 0 ↔ a.toNat = 0 := by
  rw [← UInt64.toNat_inj, UInt64.toNat_zero]

/-- A closed interval inside the file is cut to the file. -/
theorem resolveRange_inclusive {fileLen first : UInt64} (last : UInt64)
    (hfirst : first.toNat < fileLen.toNat) (hlast : first.toNat ≤ last.toNat) :
    (resolveRange fileLen (.inclusive first last)).overflowed = false ∧
      ∃ e, (resolveRange fileLen (.inclusive first last)).value = some (first, e) ∧
        e.toNat = min last.toNat (fileLen.toNat - 1) + 1 := by
  have hsub := toNat_sub_one (a := fileLen) (by omega)
  have hmin := toNat_min last (fileLen - 1)
  have hlt := fileLen.toNat_lt
  have hone : ¬ fileLen < 1 := by
    rw [UInt64.lt_iff_toNat_lt, UInt64.toNat_one]
    omega
  have hadd : (min last (fileLen - 1) + 1).toNat = min last.toNat (fileLen.toNat - 1) + 1 := by
    rw [UInt64.toNat_add, hmin, hsub, UInt64.toNat_one, Nat.mod_eq_of_lt (by omega)]
  have hle : ¬ min last.toNat (fileLen.toNat - 1) < first.toNat := by omega
  simp only [resolveRange, ge_iff_le, UInt64.le_iff_toNat_le, Nat.not_le.mpr hfirst, if_false,
    Tracked.overflowed_bind, overflowed_subU64, value_subU64, Tracked.value_bind, hone, decide_false,
    Bool.false_or, gt_iff_lt, UInt64.lt_iff_toNat_lt, hmin, hsub, hle, overflowed_addU64,
    Tracked.overflowed_pure, Bool.or_false, value_addU64, Tracked.value_pure]
  refine ⟨?_, _, rfl, hadd⟩
  simp only [decide_eq_false_iff_not, UInt64.toNat_one]
  omega

/-- A closed interval outside the file, or an empty one, is not satisfiable. -/
theorem resolveRange_inclusive_none {fileLen first last : UInt64}
    (h : ¬ (first.toNat < fileLen.toNat ∧ first.toNat ≤ last.toNat)) :
    (resolveRange fileLen (.inclusive first last)).overflowed = false ∧
      (resolveRange fileLen (.inclusive first last)).value = none := by
  simp only [resolveRange, ge_iff_le, UInt64.le_iff_toNat_le]
  by_cases hfirst : fileLen.toNat ≤ first.toNat
  · simp [hfirst]
  · have hsub := toNat_sub_one (a := fileLen) (by omega)
    have hmin := toNat_min last (fileLen - 1)
    have hone : ¬ fileLen < 1 := by
      rw [UInt64.lt_iff_toNat_lt, UInt64.toNat_one]
      omega
    have hlast : min last.toNat (fileLen.toNat - 1) < first.toNat := by omega
    simp [hfirst, hone, UInt64.lt_iff_toNat_lt, hmin, hsub, hlast]

/-- A suffix is cut to the file, and is not satisfiable when nothing is left of it. -/
theorem resolveRange_suffix (fileLen length : UInt64) :
    (resolveRange fileLen (.suffix length)).overflowed = false ∧
      if 0 < length.toNat ∧ 0 < fileLen.toNat then
        ∃ s, (resolveRange fileLen (.suffix length)).value = some (s, fileLen) ∧
          s.toNat = fileLen.toNat - length.toNat
      else (resolveRange fileLen (.suffix length)).value = none := by
  have hmin := toNat_min length fileLen
  have hle : ¬ fileLen < min length fileLen := by
    rw [UInt64.lt_iff_toNat_lt, hmin]
    omega
  simp only [resolveRange]
  by_cases h : length = 0
  · simp [h]
  · have hpos : 0 < length.toNat := Nat.pos_of_ne_zero fun h0 => h ((eq_zero_iff_toNat length).mpr h0)
    by_cases hm : min length fileLen = 0
    · have hno : fileLen.toNat = 0 := by
        have hm0 := (eq_zero_iff_toNat _).mp hm
        omega
      simp [h, hm, hno]
    · have hyes : 0 < fileLen.toNat := by
        have hne : (min length fileLen).toNat ≠ 0 := fun h0 => hm ((eq_zero_iff_toNat _).mpr h0)
        omega
      have hsub : (fileLen - min length fileLen).toNat = fileLen.toNat - length.toNat := by
        rw [UInt64.toNat_sub_of_le _ _ (UInt64.le_iff_toNat_le.mpr (by omega)), hmin]
        omega
      simp [h, hm, hpos, hyes, hle, hsub]

/-- What range resolution does, on the values of its numbers: no step overflows, and the window is
the requested interval cut to the file, when that is nonempty. -/
theorem resolveRange_toNat (fileLen : UInt64) (range : ByteRange) :
    (resolveRange fileLen range).overflowed = false ∧
      match range with
      | .from first =>
        if first.toNat < fileLen.toNat then
          (resolveRange fileLen range).value = some (first, fileLen)
        else (resolveRange fileLen range).value = none
      | .inclusive first last =>
        if first.toNat < fileLen.toNat ∧ first.toNat ≤ last.toNat then
          ∃ e, (resolveRange fileLen range).value = some (first, e) ∧
            e.toNat = min last.toNat (fileLen.toNat - 1) + 1
        else (resolveRange fileLen range).value = none
      | .suffix length =>
        if 0 < length.toNat ∧ 0 < fileLen.toNat then
          ∃ s, (resolveRange fileLen range).value = some (s, fileLen) ∧
            s.toNat = fileLen.toNat - length.toNat
        else (resolveRange fileLen range).value = none := by
  cases range with
  | «from» first =>
    simp only [resolveRange, ge_iff_le, UInt64.le_iff_toNat_le]
    by_cases h : fileLen.toNat ≤ first.toNat
    · simp [h, Nat.not_lt.mpr h]
    · simp [h, Nat.not_le.mp h]
  | inclusive first last =>
    by_cases h : first.toNat < fileLen.toNat ∧ first.toNat ≤ last.toNat
    · simp only [if_pos h]
      exact resolveRange_inclusive last h.1 h.2
    · simp only [if_neg h]
      exact resolveRange_inclusive_none h
  | suffix length => exact resolveRange_suffix fileLen length

/-- No subtraction or addition of range resolution overflows. -/
theorem resolveRange_overflowed (fileLen : UInt64) (range : ByteRange) :
    (resolveRange fileLen range).overflowed = false := (resolveRange_toNat fileLen range).1

/-- A resolved window is nonempty, lies in the file and is exactly the set of requested positions
that the file has. -/
theorem resolveRange_eq_some {fileLen : UInt64} {range : ByteRange} {s e : UInt64}
    (h : (resolveRange fileLen range).value = some (s, e)) :
    s < e ∧ e ≤ fileLen ∧
      ∀ i : ℕ, (s.toNat ≤ i ∧ i < e.toNat) ↔ range.requested fileLen.toNat i ∧ i < fileLen.toNat := by
  have hspec := (resolveRange_toNat fileLen range).2
  rw [UInt64.lt_iff_toNat_lt, UInt64.le_iff_toNat_le]
  cases range <;> simp only [ByteRange.requested] at hspec ⊢ <;> split at hspec
  case «from».isTrue first hlt =>
    obtain ⟨rfl, rfl⟩ : first = s ∧ fileLen = e := by simpa [hspec] using h
    exact ⟨hlt, Nat.le_refl _, fun i => Iff.rfl⟩
  case inclusive.isTrue first last hlt =>
    obtain ⟨e', he', hval⟩ := hspec
    obtain ⟨rfl, rfl⟩ : first = s ∧ e' = e := by simpa [he'] using h
    refine ⟨by omega, by omega, fun i => by omega⟩
  case suffix.isTrue length hpos =>
    obtain ⟨s', hs', hval⟩ := hspec
    obtain ⟨rfl, rfl⟩ : s' = s ∧ fileLen = e := by simpa [hs'] using h
    refine ⟨by omega, by omega, fun i => by omega⟩
  all_goals
    rw [hspec] at h
    contradiction

/-- A range resolves exactly when some requested position lies in the file. -/
theorem resolveRange_isSome_iff (fileLen : UInt64) (range : ByteRange) :
    (resolveRange fileLen range).value.isSome ↔
      ∃ i, range.requested fileLen.toNat i ∧ i < fileLen.toNat := by
  constructor
  · intro h
    obtain ⟨⟨s, e⟩, hse⟩ := Option.isSome_iff_exists.mp h
    obtain ⟨hlt, -, hmem⟩ := resolveRange_eq_some hse
    exact ⟨s.toNat, (hmem s.toNat).mp ⟨Nat.le_refl _, UInt64.lt_iff_toNat_lt.mp hlt⟩⟩
  · rintro ⟨i, hreq, hi⟩
    have hspec := (resolveRange_toNat fileLen range).2
    cases range <;> simp only [ByteRange.requested] at hspec hreq <;> split at hspec
    case «from».isTrue => simp [hspec]
    case inclusive.isTrue =>
      obtain ⟨e, he, -⟩ := hspec
      simp [he]
    case suffix.isTrue =>
      obtain ⟨s, hs, -⟩ := hspec
      simp [hs]
    all_goals omega

end HdfsS3Gateway
