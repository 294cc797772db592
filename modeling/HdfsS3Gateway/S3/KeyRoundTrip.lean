import HdfsS3Gateway.Core.KeyRoundTrip
import HdfsS3Gateway.S3.Frontier
import HdfsS3Gateway.S3.Gateway

/-!
# Listed keys address the files they were listed for

The listing translates the paths that HDFS reports into keys, HEAD and GET translate keys back into
paths. The two translations are inverse on canonical paths strictly below the root, and any other
accepted key is an alias of the canonical key of its path.
-/

namespace HdfsS3Gateway

namespace PathMapper

variable (m : PathMapper)

/-- A canonical path strictly below the root, on segments. -/
theorem strictlyUnder_root {segs : List Str} (h : ∀ s ∈ segs, Plain s)
    (hunder : StrictlyUnder (absPath segs) m.root) :
    m.rootSegments <+: segs ∧ segs ≠ m.rootSegments := by
  rw [StrictlyUnder, segmentsOf_absPath h] at hunder
  exact ⟨hunder.1, fun heq => hunder.2 heq.symm⟩

/-- The key that a listing gives a child resolves to the path of the child. -/
theorem keyToHdfsPath_childEntry {status : FileStatus} {x : ListEntry ⊕ Str}
    (hpath : CanonicalAbs status.path) (h : childEntry m status = some x) :
    m.keyToHdfsPath (entryKey x) = some status.path := by
  obtain ⟨segs, hplain, hsegs⟩ := hpath
  unfold childEntry at h
  rw [hsegs, m.hdfsPathToKey_absPath hplain] at h
  split at h
  · contradiction
  · rename_i key hkey
    split at hkey
    · rename_i hroot
      obtain rfl := Option.some.inj hkey
      split at h
      · contradiction
      · rename_i hnonempty
        have hne : segs ≠ m.rootSegments := by
          rintro rfl
          simp [keyOf] at hnonempty
        have hres := m.keyToHdfsPath_keyOf hplain hroot hne
        rw [hsegs]
        split at h <;> obtain rfl := Option.some.inj h <;> exact hres
    · contradiction

end PathMapper

namespace HdfsGateway

variable (self : HdfsGateway)

/-- Keys and paths are inverse to each other: every canonical path strictly below the root has a
canonical key, which HEAD and GET resolve to the path, and different paths have different keys; an
accepted key names the canonical key of its path; and no other path has a key. -/
theorem keys_paths_inverse :
    (∀ p, CanonicalAbs p → StrictlyUnder p self.mapper.root →
      ∃ k, self.mapper.hdfsPathToKey p = some k ∧ CanonicalKey k ∧
        self.mapper.keyToHdfsPath k = some p ∧ self.resolvePath self.mapper.bucket k = .ok p) ∧
    (∀ status x, CanonicalAbs status.path → childEntry self.mapper status = some x →
      self.resolvePath self.mapper.bucket (entryKey x) = .ok status.path) ∧
    (∀ p q, CanonicalAbs p → CanonicalAbs q → StrictlyUnder p self.mapper.root →
      StrictlyUnder q self.mapper.root →
      self.mapper.hdfsPathToKey p = self.mapper.hdfsPathToKey q → p = q) ∧
    (∀ k p, self.mapper.keyToHdfsPath k = some p →
      ∃ ks, self.mapper.hdfsPathToKey p = some (joinSlash ks) ∧ (∀ s ∈ ks, Plain s) ∧
        resolve self.mapper.rootSegments (splitSlash k) = self.mapper.rootSegments ++ ks ∧
        (CanonicalKey k → joinSlash ks = k) ∧
        (p ≠ self.mapper.root → self.mapper.keyToHdfsPath (joinSlash ks) = some p)) ∧
    (∀ p, startsWith p [slash] = false → self.mapper.hdfsPathToKey p = none) ∧
    (∀ p, Climbs [] (splitSlash p) ∨ ¬ self.mapper.rootSegments <+: resolve [] (splitSlash p) →
      self.mapper.hdfsPathToKey (slash :: p) = none) := by
  let m := self.mapper
  have hresolve : ∀ k p, m.keyToHdfsPath k = some p → self.resolvePath m.bucket k = .ok p := by
    intro k p h
    rw [resolvePath, if_neg (not_not_intro rfl), h]
  refine ⟨?_, ?_, ?_, ?_, ?_, ?_⟩
  · rintro _ ⟨segs, hplain, rfl⟩ hunder
    obtain ⟨hroot, hne⟩ := m.strictlyUnder_root hplain hunder
    have hkey := m.keyToHdfsPath_keyOf hplain hroot hne
    refine ⟨m.keyOf segs, ?_, m.canonicalKey_keyOf hplain hroot hne, hkey, hresolve _ _ hkey⟩
    rw [m.hdfsPathToKey_absPath hplain, if_pos hroot]
  · exact fun status x hpath h => hresolve _ _ (m.keyToHdfsPath_childEntry hpath h)
  · rintro _ _ ⟨xs, hx, rfl⟩ ⟨ys, hy, rfl⟩ hux huy h
    obtain ⟨hrx, hnx⟩ := m.strictlyUnder_root hx hux
    obtain ⟨hry, hny⟩ := m.strictlyUnder_root hy huy
    rw [m.hdfsPathToKey_absPath hx, if_pos hrx, m.hdfsPathToKey_absPath hy, if_pos hry] at h
    rw [m.keyOf_injective hx hy hrx hry hnx hny (Option.some.inj h)]
  · intro k p h
    obtain ⟨ks, hks, hres, rfl, hkey⟩ := m.hdfsPathToKey_keyToHdfsPath h
    refine ⟨ks, hkey, hks, hres, ?_, fun hne => ?_⟩
    · rintro ⟨ks', hne, hplain, rfl⟩
      have hpath := m.keyToHdfsPath_joinSlash hplain hne
      rw [hpath] at h
      have hsame := absPath_injective
        (fun s hs => (List.mem_append.mp hs).elim (m.rootSegments_plain s) (hplain s))
        (fun s hs => (List.mem_append.mp hs).elim (m.rootSegments_plain s) (hks s))
        (Option.some.inj h)
      rw [List.append_cancel_left hsame]
    · apply m.keyToHdfsPath_joinSlash hks
      rintro rfl
      exact hne (by rw [List.append_nil, m.absPath_rootSegments])
  · intro p hrel
    by_contra hne
    obtain ⟨k, hk⟩ := Option.ne_none_iff_exists'.mp hne
    rw [(m.hdfsPathToKey_eq_some hk).1] at hrel
    contradiction
  · exact fun p h => m.hdfsPathToKey_outside h

end HdfsGateway

end HdfsS3Gateway
