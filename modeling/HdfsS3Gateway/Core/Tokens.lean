import HdfsS3Gateway.Core.Pagination
import HdfsS3Gateway.Library.Base64
import HdfsS3Gateway.Library.Utf8

/-!
# Continuation tokens

A token is the URL-safe form of a key without padding; older tokens are in the padded standard form.
Decoding tries the URL-safe form first. Whatever both forms accept, they decode alike, since an
unpadded form has no padding byte and the alphabets differ in two symbols only. As both forms are
strict, a token is accepted only if it is one of the two forms of a key.
-/

namespace HdfsS3Gateway

/-- The two engines of the base64 crate follow RFC 4648: strict alphabets, padding and trailing
bits. -/
structure FollowsRfc4648 (urlSafeNoPad standard : Base64Engine) : Prop where
  urlSafe_encode : ∀ bytes, urlSafeNoPad.encode bytes = Base64.urlSafe.encode bytes
  urlSafe_decode : ∀ s, urlSafeNoPad.decode s = Base64.urlSafe.decode s
  standard_encode : ∀ bytes, standard.encode bytes = Base64.standard.encodePadded bytes
  standard_decode : ∀ s, standard.decode s = Base64.standard.decodePadded s

/-- The URL-safe engine of RFC 4648. -/
def Base64Engine.rfcUrlSafe : Base64Engine :=
  ⟨Base64.urlSafe.encode, Base64.urlSafe.decode, Base64.urlSafe.decode_encode⟩

/-- The standard engine of RFC 4648. -/
def Base64Engine.rfcStandard : Base64Engine :=
  ⟨Base64.standard.encodePadded, Base64.standard.decodePadded,
    Base64.standard.decodePadded_encodePadded⟩

theorem valid_slash : Utf8.Valid [slash] := ⟨['/'], by decide⟩

variable {urlSafeNoPad standard : Base64Engine}

/-- Exactly the bytes that are UTF-8 make a string, themselves. -/
theorem stringFromUtf8_iff {bytes key : Str} :
    stringFromUtf8 bytes = some key ↔ bytes = key ∧ Utf8.Valid key := by
  rw [stringFromUtf8, Option.ite_none_right_eq_some, Utf8.isValidUTF8_iff, Option.some.injEq]
  constructor
  · rintro ⟨hvalid, rfl⟩
    exact ⟨rfl, hvalid⟩
  · rintro ⟨rfl, hvalid⟩
    exact ⟨hvalid, rfl⟩

/-- The key of a token that the client was given. -/
theorem decodeToken_encodeToken (urlSafeNoPad standard : Base64Engine) {key : Str}
    (h : Utf8.Valid key) :
    decodeToken urlSafeNoPad standard (encodeToken urlSafeNoPad key) = some key := by
  rw [decodeToken, encodeToken, urlSafeNoPad.decode_encode, Option.some_or, Option.bind_some]
  exact stringFromUtf8_iff.mpr ⟨rfl, h⟩

/-- The key of an older token: if the URL-safe form accepts it, there is no padding and the bytes
are the same. -/
theorem decodeToken_standard (hrfc : FollowsRfc4648 urlSafeNoPad standard) {key : Str}
    (h : Utf8.Valid key) : decodeToken urlSafeNoPad standard (standard.encode key) = some key := by
  have hbytes : (urlSafeNoPad.decode (standard.encode key)).or
      (standard.decode (standard.encode key)) = some key := by
    rw [standard.decode_encode]
    cases hurl : urlSafeNoPad.decode (standard.encode key) with
    | none => rfl
    | some bytes =>
      rw [hrfc.urlSafe_decode, hrfc.standard_encode] at hurl
      have hunpadded := Base64.Alphabet.encodePadded_of_decode (b := Base64.standard)
        Base64.urlSafe_strict rfl hurl
      rw [hunpadded] at hurl
      rw [Base64.Alphabet.decode_agree Base64.value_agree hurl (Base64.standard.decode_encode key)]
      rfl
  rw [decodeToken, hbytes, Option.bind_some]
  exact stringFromUtf8_iff.mpr ⟨rfl, h⟩

/-- An accepted token is one of the two forms of its key. -/
theorem encode_of_decodeToken (hrfc : FollowsRfc4648 urlSafeNoPad standard) {token key : Str}
    (h : decodeToken urlSafeNoPad standard token = some key) :
    Utf8.Valid key ∧ (encodeToken urlSafeNoPad key = token ∨ standard.encode key = token) := by
  obtain ⟨bytes, hbytes, hkey⟩ := Option.bind_eq_some_iff.mp h
  obtain ⟨rfl, hvalid⟩ := stringFromUtf8_iff.mp hkey
  refine ⟨hvalid, ?_⟩
  rcases Option.or_eq_some_iff.mp hbytes with hurl | ⟨-, hstandard⟩
  · rw [hrfc.urlSafe_decode] at hurl
    rw [encodeToken, hrfc.urlSafe_encode]
    exact Or.inl (Base64.Alphabet.encode_decode Base64.urlSafe_strict hurl)
  · rw [hrfc.standard_decode] at hstandard
    rw [hrfc.standard_encode]
    exact Or.inr (Base64.Alphabet.encodePadded_decodePadded Base64.standard_strict hstandard)

/-- Tokens of different keys differ. -/
theorem encodeToken_inj (urlSafeNoPad : Base64Engine) {key key' : Str}
    (h : encodeToken urlSafeNoPad key = encodeToken urlSafeNoPad key') : key = key' := by
  have hdecode := congrArg urlSafeNoPad.decode h
  rw [encodeToken, encodeToken, urlSafeNoPad.decode_encode, urlSafeNoPad.decode_encode] at hdecode
  exact Option.some.inj hdecode

/-- Both forms of a key decode to it, no two keys have one token, a token consists of letters,
digits, `-` and `_`, and an accepted token is one of the two forms of its key. -/
theorem tokens_roundTrip (hrfc : FollowsRfc4648 urlSafeNoPad standard) :
    (∀ key, Utf8.Valid key →
      decodeToken urlSafeNoPad standard (encodeToken urlSafeNoPad key) = some key ∧
        decodeToken urlSafeNoPad standard (standard.encode key) = some key) ∧
    Function.Injective (encodeToken urlSafeNoPad) ∧
    (∀ key, ∀ c ∈ encodeToken urlSafeNoPad key,
      (65 ≤ c ∧ c ≤ 90) ∨ (97 ≤ c ∧ c ≤ 122) ∨ (48 ≤ c ∧ c ≤ 57) ∨ c = 45 ∨ c = 95) ∧
    (∀ token key, decodeToken urlSafeNoPad standard token = some key →
      Utf8.Valid key ∧ (encodeToken urlSafeNoPad key = token ∨ standard.encode key = token)) := by
  refine ⟨fun key hkey => ?_, fun key key' => encodeToken_inj urlSafeNoPad, fun key c hc => ?_,
    fun token key => encode_of_decodeToken hrfc⟩
  · exact ⟨decodeToken_encodeToken urlSafeNoPad standard hkey, decodeToken_standard hrfc hkey⟩
  · rw [encodeToken, hrfc.urlSafe_encode] at hc
    obtain ⟨i, hi, rfl⟩ := Base64.urlSafe.mem_encode hc
    exact Base64.urlSafe_symbol i hi

/-- For example with the engines of the standard. -/
theorem tokens_roundTrip_rfc :
    decodeToken .rfcUrlSafe .rfcStandard [90, 109, 56] = some [102, 111] ∧
      decodeToken .rfcUrlSafe .rfcStandard [90, 109, 56, 61] = some [102, 111] :=
  (@tokens_roundTrip .rfcUrlSafe .rfcStandard
    ⟨fun _ => rfl, fun _ => rfl, fun _ => rfl, fun _ => rfl⟩).1 [102, 111] ⟨['f', 'o'], by decide⟩

end HdfsS3Gateway
