import HdfsS3Gateway.S3.Keeps
import Mathlib.Order.Defs.PartialOrder

/-!
# Cached values that stay valid

An invariant of the simplest kind: every cached value, and every value that was ever hit, satisfies
a predicate that only depends on the state of HDFS and that changes of HDFS cannot falsify. The
commands keep it if only valid values are inserted. A fixed namespace is the case in which HDFS has
one state, a history of versions the case in which it grows.
-/

namespace HdfsS3Gateway

open Interaction

/-- What makes a cached value valid on a machine whose HDFS moves up in an order. -/
structure Validity {crates : Crates} {H : Type} [Preorder H] (hdfs : Hdfs H)
    (M : Machine Cmd Cmd.Resp (World crates H)) where
  /-- The value is valid under this path. -/
  Valid : H → (name : CacheName) → Str → name.Value → Prop
  mono : ∀ {h h' : H} {name path value}, h ≤ h' → Valid h name path value → Valid h' name path value
  exec : ∀ {tid w c r w'}, M.exec tid w c r w' → w.Exec hdfs tid c r w'
  outside : ∀ {w w'}, M.outside w w' → World.Outside hdfs w w'
  change : ∀ {h h'}, hdfs.change h h' → h ≤ h'

namespace Validity

variable {crates : Crates} {H : Type} [Preorder H] {hdfs : Hdfs H}
  {M : Machine Cmd Cmd.Resp (World crates H)}

/-- Every value in the caches, and every value that was hit, is valid. -/
structure Inv (validity : Validity hdfs M) (w : World crates H) : Prop where
  entries : ∀ name path value t, w.caches.Holds name path value t →
    validity.Valid w.hdfs name path value
  hits : ∀ e ∈ w.log, ∀ name path value, e.Hits name path value →
    validity.Valid w.hdfs name path value

variable (V : Validity hdfs M)

/-- Fresh caches are valid. -/
theorem inv_init (config : CacheConfig) (now : ℕ) (start : H) :
    V.Inv (World.init crates config now start) where
  entries _ _ _ _ h := absurd h Caches.not_holds_new
  hits _ he := absurd he List.not_mem_nil

/-- A command keeps the invariant if what it inserts is valid. -/
theorem Inv.exec {w w' : World crates H} (h : V.Inv w) {tid : ℕ} {c : Cmd} {r : c.Resp}
    (hexec : w.Exec hdfs tid c r w') (hinsert : ∀ name path value weight,
      c = .cacheInsert name path value weight → V.Valid w.hdfs name path value) : V.Inv w' := by
  obtain ⟨-, hhdfs, hlog⟩ := hexec.frame
  constructor
  · intro name path value t hheld
    rw [hexec.caches] at hheld
    rw [hhdfs]
    rcases World.holds_cachesAfter hheld with ⟨weight, hc, -⟩ | ⟨hold, -⟩
    · exact hinsert name path value weight hc
    · exact h.entries name path value t hold
  · rw [hlog, hhdfs]
    intro e he name path value hhit
    rcases List.mem_append.mp he with he | he
    · exact h.hits e he name path value hhit
    · obtain rfl := List.mem_singleton.mp he
      obtain ⟨rfl, hr⟩ : c = .cacheGet name path ∧ r ≍ some value := (Event.mk.inj hhit).2.2
      obtain rfl := eq_of_heq hr
      obtain ⟨t, hheld, -⟩ := hexec.hit
      exact h.entries name path value t hheld

/-- The passing of time and changes of HDFS keep the invariant. -/
theorem Inv.outside {w w' : World crates H} (h : V.Inv w) (hout : World.Outside hdfs w w') :
    V.Inv w' ∧ w.hdfs ≤ w'.hdfs := by
  rcases hout with ⟨d, rfl⟩ | ⟨h', hchange, rfl⟩
  · exact ⟨⟨h.entries, h.hits⟩, le_refl _⟩
  · have hle := V.change hchange
    exact ⟨⟨fun name path value t hheld => V.mono hle (h.entries name path value t hheld),
      fun e he name path value hhit => V.mono hle (h.hits e he name path value hhit)⟩, hle⟩

/-- The caches are valid. A request sees HDFS move up between its own commands. -/
def rely : Rely M where
  inv := V.Inv
  later _ w w' := w.hdfs ≤ w'.hdfs
  refl _ _ := le_refl _
  trans := le_trans
  outside hinv hout :=
    have hnext := Inv.outside V hinv (V.outside hout)
    ⟨hnext.1, fun _ => hnext.2⟩

variable {V} {tid : ℕ} {w : World crates H}

/-- The rule of one command: an inserted value must be valid. -/
theorem ensures_command {c : Cmd} {Q : World crates H → c.Resp → Prop}
    (hinsert : ∀ name path value weight, c = .cacheInsert name path value weight →
      V.Valid w.hdfs name path value)
    (hQ : ∀ w' r w'' v, w.hdfs ≤ w'.hdfs → V.Inv w' → M.exec tid w' c r w'' →
      w'.hdfs ≤ v.hdfs → Q v r) :
    (Prog.perform c : Req c.Resp).Ensures V.rely tid Q w := by
  apply Prog.ensures_perform
  intro w' r w'' hle hinv hexec
  have hhdfs := (V.exec hexec).frame.2.1
  refine ⟨?_, fun _ _ => hhdfs.ge, fun v hv => hQ w' r w'' v hle hinv hexec (hhdfs ▸ hv)⟩
  exact Inv.exec V hinv (V.exec hexec) fun name path value weight hc =>
    V.mono hle (hinsert name path value weight hc)

/-- The rule of inserting a valid value. -/
theorem ensures_insert {name : CacheName} {path : Str} {value : name.Value} {weight : ℕ}
    (h : V.Valid w.hdfs name path value) :
    (cacheInsert name path value weight).Ensures V.rely tid (fun v _ => w.hdfs ≤ v.hdfs) w := by
  apply ensures_command
  · intro name' path' value' weight' hc
    obtain ⟨rfl, rfl, hvalue, -⟩ := Cmd.cacheInsert.inj hc
    rwa [← eq_of_heq hvalue]
  · exact fun _ _ _ _ hle _ _ hle' => le_trans hle hle'

/-- The rule of a lookup: what is hit is valid. -/
theorem ensures_lookup {β : Type} {name : CacheName} {path : Str} {f : Option name.Value → Req β}
    {Q : World crates H → β → Prop}
    (hmiss : ∀ v, w.hdfs ≤ v.hdfs → (f none).Ensures V.rely tid Q v)
    (hhit : ∀ value v, w.hdfs ≤ v.hdfs → V.Valid v.hdfs name path value →
      (f (some value)).Ensures V.rely tid Q v) :
    (cacheGet name path >>= f).Ensures V.rely tid Q w := by
  apply Prog.ensures_bind
  apply ensures_command
  · intro name' path' value weight hc
    cases hc
  · intro w' r w'' v hle hinv hexec hle'
    cases r with
    | none => exact hmiss v (le_trans hle hle')
    | some value =>
      obtain ⟨t, hheld, -⟩ := (V.exec hexec).hit
      exact hhit value v (le_trans hle hle') (V.mono hle' (hinv.entries name path value t hheld))

/-- The rule of a call to HDFS. -/
theorem ensures_upstream {β : Type} {u : Upstream} {f : u.Reply → Req β}
    {Q : World crates H → β → Prop}
    (hf : ∀ w' r w'' v, w.hdfs ≤ w'.hdfs → M.exec tid w' (.upstream u) r w'' →
      w'.hdfs ≤ v.hdfs → (f r).Ensures V.rely tid Q v) :
    (callUpstream u >>= f).Ensures V.rely tid Q w := by
  apply Prog.ensures_bind
  apply ensures_command
  · intro name path value weight hc
    cases hc
  · exact fun w' r w'' v hle _ hexec hle' => hf w' r w'' v hle hexec hle'

/-- While a program runs, HDFS only moves up. -/
theorem ensures_later {α : Type} {p : Req α} (h : p.Ensures V.rely tid (fun _ _ => True) w) :
    p.Ensures V.rely tid (fun v _ => w.hdfs ≤ v.hdfs) w := by
  have hframe := h.frame (fun v v' hle hv => le_trans hv hle)
    (fun v c r v' hexec hv => ((V.exec hexec).frame.2.1).ge.trans' hv) (le_refl w.hdfs)
  exact hframe.mono fun _ _ h => h.2

/-- The rule of a removal. -/
theorem ensures_remove {name : CacheName} {path : Str} :
    (cacheRemove name path).Ensures V.rely tid (fun v _ => w.hdfs ≤ v.hdfs) w := by
  apply ensures_command
  · intro name' path' value weight hc
    cases hc
  · exact fun _ _ _ _ hle _ _ hv => le_trans hle hv

/-- Only inserted values have to be valid. -/
theorem reads_keep : ReadsKeep V.rely := fun _ hc _ _ =>
  ensures_command (fun _ _ _ _ heq => absurd heq (hc _ _ _ _)) fun _ _ _ _ _ _ _ _ => trivial

end Validity

end HdfsS3Gateway
