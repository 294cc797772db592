import HdfsS3Gateway.Core.PrefixStart
import HdfsS3Gateway.Core.Resolution

/-!
# Keys and paths are inverse to each other

On canonical paths the key is the rendering of the segments below the root, so both directions of
the translation are one equation each on segments, and everything else follows from the two.
-/

namespace HdfsS3Gateway

namespace PathMapper

variable (m : PathMapper)

/-- The key of the path with the given segments. -/
def keyOf (segs : List Str) : Str := joinSlash (segs.drop m.rootSegments.length)

theorem keyOf_append (ks : List Str) : m.keyOf (m.rootSegments ++ ks) = joinSlash ks := by
  rw [keyOf, List.drop_left]

/-- The key of a canonical path at or below the root renders the segments below the root; no other
canonical path has a key. -/
theorem hdfsPathToKey_absPath {segs : List Str} (h : ∀ s ∈ segs, Plain s) :
    m.hdfsPathToKey (absPath segs) = if m.rootSegments <+: segs then some (m.keyOf segs) else none := by
  have hroot : absPath segs = m.root ↔ segs = m.rootSegments := by
    rw [← m.absPath_rootSegments]
    exact ⟨absPath_injective h m.rootSegments_plain, fun heq => by rw [heq]⟩
  unfold hdfsPathToKey
  rw [normalizeAbs_absPath h]
  simp only []
  split
  · rename_i heq
    obtain rfl := hroot.mp heq
    simp [keyOf]
  · rename_i hne
    have hseg : segs ≠ m.rootSegments := fun heq => hne (hroot.mpr heq)
    by_cases htop : m.root = [slash]
    · have hnil := m.root_eq_slash_iff.mp htop
      simp [htop, hnil, keyOf, absPath]
    · have hnonempty : m.rootSegments ≠ [] := fun heq => htop (m.root_eq_slash_iff.mpr heq)
      have hiff := absPath_slash_prefix_iff m.rootSegments_plain h hnonempty
      rw [m.absPath_rootSegments] at hiff
      simp only [htop, if_false, startsWith_iff, hiff, ne_eq, hseg.symm, not_false_eq_true, and_true]
      split
      · rename_i hp
        obtain ⟨zs, rfl⟩ := hp
        have hz : zs ≠ [] := by
          rintro rfl
          simp at hseg
        have habs : absPath (m.rootSegments ++ zs) = (m.root ++ [slash]) ++ joinSlash zs := by
          rw [← m.absPath_rootSegments, absPath, absPath, joinSlash_append hnonempty hz]
          simp
        rw [habs, List.drop_left, keyOf_append]
      · rfl

/-- The key of a canonical path strictly below the root resolves to the path. -/
theorem keyToHdfsPath_keyOf {segs : List Str} (h : ∀ s ∈ segs, Plain s)
    (hroot : m.rootSegments <+: segs) (hne : segs ≠ m.rootSegments) :
    m.keyToHdfsPath (m.keyOf segs) = some (absPath segs) := by
  obtain ⟨ks, rfl⟩ := hroot
  rw [keyOf_append]
  exact m.keyToHdfsPath_joinSlash (fun s hs => h s (List.mem_append_right _ hs)) fun hk => hne (by simp [hk])

/-- Canonical paths strictly below the root with the same key are the same path. -/
theorem keyOf_injective {xs ys : List Str} (hx : ∀ s ∈ xs, Plain s) (hy : ∀ s ∈ ys, Plain s)
    (hrx : m.rootSegments <+: xs) (hry : m.rootSegments <+: ys) (hnx : xs ≠ m.rootSegments)
    (hny : ys ≠ m.rootSegments) (h : m.keyOf xs = m.keyOf ys) : xs = ys := by
  have hpx := m.keyToHdfsPath_keyOf hx hrx hnx
  rw [h, m.keyToHdfsPath_keyOf hy hry hny] at hpx
  exact (absPath_injective hy hx (Option.some.inj hpx)).symm

/-- The key of a canonical path strictly below the root is canonical. -/
theorem canonicalKey_keyOf {segs : List Str} (h : ∀ s ∈ segs, Plain s)
    (hroot : m.rootSegments <+: segs) (hne : segs ≠ m.rootSegments) : CanonicalKey (m.keyOf segs) := by
  obtain ⟨ks, rfl⟩ := hroot
  rw [keyOf_append]
  exact ⟨ks, fun hk => hne (by simp [hk]), fun s hs => h s (List.mem_append_right _ hs), rfl⟩

/-- A path without a leading separator has no key: its normal form has none either. -/
theorem hdfsPathToKey_relative {p : Str} (hrel : startsWith p [slash] = false) :
    m.hdfsPathToKey p = none := by
  simp only [hdfsPathToKey, normalizeAbs, hrel, Bool.false_eq_true, if_false]
  cases hloop : normalizeLoop false [] (splitSlash p) with
  | none => rfl
  | some parts =>
    have hplain := normalizeLoop_plain (fun _ hs => by contradiction)
      (fun s hs => slash_not_mem_of_mem_splitSlash hs) hloop
    have hparts : ¬ [slash] <+: joinSlash parts := by
      rintro ⟨t, ht⟩
      have hne : parts ≠ [] := by
        rintro rfl
        contradiction
      have hsplit := splitSlash_joinSlash (fun s hs => (hplain s hs).slash_not_mem) hne
      rw [← ht, List.singleton_append, splitSlash_slash_cons] at hsplit
      exact (hplain [] (hsplit ▸ List.mem_cons_self)).ne_nil rfl
    have hroot : [slash] <+: m.root := by
      rw [← m.absPath_rootSegments]
      exact List.prefix_append _ _
    have hbelow : [slash] <+: if m.root = [slash] then [slash] else m.root ++ [slash] := by
      split
      · exact List.prefix_rfl
      · exact hroot.trans (List.prefix_append _ _)
    simp only [Option.map_some]
    generalize (if m.root = [slash] then [slash] else m.root ++ [slash]) = below at hbelow ⊢
    split_ifs with heq hp
    · exact absurd (heq ▸ hroot) hparts
    · exact absurd (hbelow.trans ((startsWith_iff _ _).mp hp)) hparts
    · rfl

/-- A key comes from the canonical form of an absolute path. -/
theorem hdfsPathToKey_eq_some {p k : Str} (h : m.hdfsPathToKey p = some k) :
    startsWith p [slash] = true ∧ ∃ segs, (∀ s ∈ segs, Plain s) ∧
      normalizeAbs p = some (absPath segs) ∧ m.rootSegments <+: segs ∧ k = m.keyOf segs := by
  have habs : startsWith p [slash] = true := by
    by_contra hrel
    rw [m.hdfsPathToKey_relative (Bool.eq_false_iff.mpr hrel)] at h
    contradiction
  obtain ⟨q, hnorm⟩ : ∃ q, normalizeAbs p = some q := by
    cases hnorm : normalizeAbs p with
    | none => simp [hdfsPathToKey, hnorm] at h
    | some q => exact ⟨q, rfl⟩
  obtain ⟨segs, hplain, rfl⟩ := normalizeAbs_canonical habs hnorm
  have hsame : m.hdfsPathToKey p = m.hdfsPathToKey (absPath segs) := by
    unfold hdfsPathToKey
    rw [hnorm, normalizeAbs_absPath hplain]
  rw [hsame, m.hdfsPathToKey_absPath hplain] at h
  split at h
  · rename_i hroot
    exact ⟨habs, segs, hplain, hnorm, hroot, (Option.some.inj h).symm⟩
  · contradiction

/-- An absolute path that climbs, or that names no directory at or below the root, has no key. -/
theorem hdfsPathToKey_outside {p : Str}
    (h : Climbs [] (splitSlash p) ∨ ¬ m.rootSegments <+: resolve [] (splitSlash p)) :
    m.hdfsPathToKey (slash :: p) = none := by
  by_contra hne
  obtain ⟨k, hk⟩ := Option.ne_none_iff_exists'.mp hne
  obtain ⟨-, segs, hplain, hnorm, hroot, -⟩ := m.hdfsPathToKey_eq_some hk
  rcases h with hclimbs | hout
  · rw [normalizeAbs_of_climbs hclimbs] at hnorm
    contradiction
  · rw [normalizeAbs_slash_cons, Option.map_eq_some_iff] at hnorm
    obtain ⟨out, hloop, heq⟩ := hnorm
    obtain rfl := eq_resolve_of_normalizeLoop hloop
    have hout' := normalizeLoop_plain (fun _ hs => by contradiction)
      (fun s hs => slash_not_mem_of_mem_splitSlash hs) hloop
    exact hout (absPath_injective hout' hplain heq ▸ hroot)

/-- A key that resolves to a path and the path's own key name the same segments below the root. -/
theorem hdfsPathToKey_keyToHdfsPath {k p : Str} (h : m.keyToHdfsPath k = some p) :
    ∃ ks, (∀ s ∈ ks, Plain s) ∧ resolve m.rootSegments (splitSlash k) = m.rootSegments ++ ks ∧
      p = absPath (m.rootSegments ++ ks) ∧ m.hdfsPathToKey p = some (joinSlash ks) := by
  obtain ⟨segs, hplain, rfl, ks, rfl⟩ := m.keyToHdfsPath_eq_some h
  have hks : ∀ s ∈ ks, Plain s := fun s hs => hplain s (List.mem_append_right _ hs)
  refine ⟨ks, hks, ?_, rfl, ?_⟩
  · rw [keyToHdfsPath_eq] at h
    split at h
    · contradiction
    · obtain ⟨out, hloop, hout⟩ := Option.bind_eq_some_iff.mp h
      split at hout
      · have hout' := normalizeLoop_plain m.rootSegments_plain
          (fun s hs => slash_not_mem_of_mem_splitSlash hs) hloop
        rw [← eq_resolve_of_normalizeLoop hloop]
        exact absPath_injective hout' hplain (Option.some.inj hout)
      · contradiction
  · rw [m.hdfsPathToKey_absPath hplain, if_pos (List.prefix_append _ _), keyOf_append]

end PathMapper

end HdfsS3Gateway
