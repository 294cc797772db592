import HdfsS3Gateway.S3.Tiling

/-!
# Walking by delimiter and listing flat

A client that expands a table lists a prefix with the delimiter `/` and then every common prefix that
it was given. It ends, because below a common prefix there are fewer nodes than at the prefix before
it. It sees the objects of the flat listing, because a key that starts with the prefix is listed
itself or starts with exactly one of the common prefixes.
-/

namespace HdfsS3Gateway

/-! ## Groups of one level -/

namespace ReadableTree

variable {w : ReadableTree} {pre : Str} {outputs : List Output}

/-! ## One level of the tree -/

/-- An output for `/` is a child of the start that starts with the prefix: a file, or the output key of
a directory. -/
theorem Outputs.exists_node (hout : w.Outputs pre (some [slash]) outputs) {x : Output}
    (hx : x ∈ outputs) :
    ∃ c ∈ w.tree.exposed w.gateway.mapper, pre <+: w.gateway.mapper.keyOf c.segs ∧
      x = Sum.map id dirOutput (c.entry w.gateway.mapper) := by
  obtain ⟨hstart, hx⟩ := (hout.mem_iff x).mp hx
  obtain ⟨path, hpath⟩ := Option.ne_none_iff_exists'.mp hstart
  obtain ⟨start, hplain, rfl, -⟩ := w.gateway.mapper.listStart_eq_some hpath
  obtain ⟨hflevel, hdlevel⟩ := w.tree.children_level hplain hpath
  have hx := (Namespace.isOutput_children hplain hpath x).mp hx
  rw [isOutput_level hflevel hdlevel] at hx
  cases x with
  | inl e =>
    obtain ⟨he, hpre⟩ := hx
    obtain ⟨c, hc, hfile, rfl⟩ := Inode.mem_objects.mp he
    exact ⟨c, Namespace.children_exposed hplain hpath hc, hpre, by simp [Inode.entry, hfile]⟩
  | inr p =>
    obtain ⟨d, hd, hpre, rfl⟩ := hx
    obtain ⟨rest, hkey, -⟩ := hdlevel d hd hpre
    obtain ⟨c, hc, hdir, rfl⟩ := Inode.mem_dirKeys.mp hd
    exact ⟨c, Namespace.children_exposed hplain hpath hc, ⟨rest, hkey.symm⟩,
      by simp [Inode.entry, hdir]⟩

/-- Outputs are all different. -/
theorem Outputs.nodup {delimiter : Option Str} (hout : w.Outputs pre delimiter outputs) :
    outputs.Nodup := hout.ascending.imp fun h heq => absurd (heq ▸ h) (lt_irrefl _)

/-- Every output for `/` is one of the nodes with a key. -/
theorem Outputs.length_le (hout : w.Outputs pre (some [slash]) outputs) :
    outputs.length ≤ w.tree.nodes.length := by
  have hsub : outputs ⊆ (w.tree.exposed w.gateway.mapper).map fun c =>
      Sum.map id dirOutput (c.entry w.gateway.mapper) := by
    intro x hx
    obtain ⟨c, hc, -, rfl⟩ := hout.exists_node hx
    exact List.mem_map_of_mem hc
  have hle := (List.subperm_of_subset hout.nodup hsub).length_le
  rw [List.length_map] at hle
  exact hle.trans (List.length_filter_le _ _)

end ReadableTree

end HdfsS3Gateway
