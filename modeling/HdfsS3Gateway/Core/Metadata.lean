import HdfsS3Gateway.Core.Bytes
import Mathlib.Data.List.Basic

/-!
# Object metadata

The internal view of an HDFS file that the S3 layer turns into headers. `hdfs-native` exposes no
checksum, so the ETag in use is the one derived from length and modification time, and two files
have the same ETag only if they agree in both. The content type is looked up by a third-party table,
which is a parameter here.
-/

namespace HdfsS3Gateway

/-- `ObjectMetadata`. -/
structure ObjectMetadata where
  path : Str
  length : UInt64
  isDir : Bool
  modificationTime : UInt64
  checksum : Option (List UInt8)

/-- `{:x}`: lower-case hexadecimal without padding. -/
def lowerHex (n : UInt64) : String := String.ofList (Nat.toDigits 16 n.toNat)

/-- `hex_encode`: two hexadecimal digits for each byte. -/
def hexEncode (bytes : List UInt8) : String :=
  String.ofList (bytes.flatMap fun b => [Nat.digitChar (b.toNat / 16), Nat.digitChar (b.toNat % 16)])

/-- `fallback_etag`: the ETag without a checksum. -/
def fallbackEtag (length modificationTime : UInt64) : String :=
  "hdfs-" ++ lowerHex length ++ "-" ++ lowerHex modificationTime

/-- `ObjectMetadata::etag`. -/
def ObjectMetadata.etag (self : ObjectMetadata) : String :=
  match self.checksum with
  | some bytes => hexEncode bytes
  | none => fallbackEtag self.length self.modificationTime

/-- `ObjectMetadata::content_type`: guessed from the file name, with a fallback. -/
def ObjectMetadata.contentType (mimeGuess : Str → Option String) (self : ObjectMetadata) : String :=
  let name := (splitSlash self.path).getLastD self.path
  (mimeGuess name).getD "application/octet-stream"

/-! ## The fallback ETag identifies length and modification time -/

/-- The hexadecimal digits are distinct characters. -/
theorem digitChar_inj : ∀ a < 16, ∀ b < 16, Nat.digitChar a = Nat.digitChar b → a = b := by decide

/-- The dash is no hexadecimal digit. -/
theorem digitChar_ne_dash : ∀ d < 16, Nat.digitChar d ≠ '-' := by decide

/-- The digits of a number read it back. -/
theorem toDigits_injective : Function.Injective (Nat.toDigits 16) := by
  intro a
  induction a using Nat.strongRecOn with
  | ind a ih =>
    intro b h
    rw [Nat.toDigits_eq_if (n := a) (by omega), Nat.toDigits_eq_if (n := b) (by omega)] at h
    split at h <;> split at h
    case isTrue.isTrue ha hb => exact digitChar_inj a ha b hb (List.singleton_inj.mp h)
    case isTrue.isFalse =>
      rw [List.singleton_eq_append_iff] at h
      simp [Nat.toDigits_ne_nil] at h
    case isFalse.isTrue =>
      rw [eq_comm, List.singleton_eq_append_iff] at h
      simp [Nat.toDigits_ne_nil] at h
    case isFalse.isFalse ha hb =>
      obtain ⟨hdiv, hmod⟩ := List.append_inj' h rfl
      have hdiv' := ih (a / 16) (by omega) hdiv
      have hmod' := digitChar_inj (a % 16) (by omega) (b % 16) (by omega) (List.singleton_inj.mp hmod)
      omega

/-- No digit of a number is a dash. -/
theorem dash_not_mem_toDigits (n : ℕ) : '-' ∉ Nat.toDigits 16 n := by
  induction n using Nat.strongRecOn with
  | ind n ih =>
    intro h
    rw [Nat.toDigits_eq_if (by omega)] at h
    split at h
    · rename_i hlt
      exact digitChar_ne_dash n hlt (List.mem_singleton.mp h).symm
    · rcases List.mem_append.mp h with h | h
      · exact ih (n / 16) (by omega) h
      · exact digitChar_ne_dash (n % 16) (by omega) (List.mem_singleton.mp h).symm

/-- Equal ETags name the same length and modification time. -/
theorem fallbackEtag_inj {length length' modificationTime modificationTime' : UInt64}
    (h : fallbackEtag length modificationTime = fallbackEtag length' modificationTime') :
    length = length' ∧ modificationTime = modificationTime' := by
  have hlist := congrArg String.toList h
  simp only [fallbackEtag, lowerHex, String.toList_append, String.toList_ofList,
    List.append_assoc] at hlist
  have hdigits := List.append_cancel_left hlist
  change _ ++ '-' :: _ = _ ++ '-' :: _ at hdigits
  obtain ⟨hlength, -, htime⟩ := (List.append_cons_inj_of_notMem (dash_not_mem_toDigits _)
    (dash_not_mem_toDigits _)).mp hdigits
  exact ⟨UInt64.toNat_inj.mp (toDigits_injective hlength),
    UInt64.toNat_inj.mp (toDigits_injective htime)⟩

end HdfsS3Gateway
