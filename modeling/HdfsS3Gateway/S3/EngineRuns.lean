import HdfsS3Gateway.Library.Transcript
import HdfsS3Gateway.S3.Frontier

/-!
# Runs of the sorted merge against a changing namespace

A page of a recursive listing is a sequence of turns of the engine, whatever its calls are answered
with. `Reached` collects the states on the way, with the replies received so far and the entries
emitted so far, so that an invariant of the engine is one lemma about seeding and one about a turn.
A page that is returned ends either with nothing pending, or with one entry more than it holds.
-/

namespace HdfsS3Gateway

open Interaction

/-- A listing that was asked for, and the reply. -/
abbrev Exchange := (_ : Str) × Except HdfsError DirListing

namespace SortedListing

variable {s s' : SortedListing} {log : List Exchange}

/-! ## One turn -/

/-- What a turn emits. -/
def Turn.emitted : Turn → List ListEntry
  | .emit entry => [entry]
  | _ => []

/-- Opening a directory is one call. -/
theorem openDir_length {path : Str} {out : Turn × SortedListing} (h : (s.openDir path).Runs log out) :
    log.length = 1 := by
  unfold openDir at h
  rw [Prog.perform_bind, Prog.runs_call] at h
  obtain ⟨reply, rest, rfl, hrest⟩ := h
  suffices hnil : rest = [] by rw [hnil, List.length_singleton]
  cases reply with
  | ok listing => exact (Prog.runs_ret.mp hrest).1
  | error err =>
    simp only [] at hrest
    split at hrest
    · exact (Prog.runs_ret.mp hrest).1
    · split at hrest <;> exact (Prog.runs_ret.mp hrest).1

/-- A turn makes at most one call. -/
theorem turn_length {out : Turn × SortedListing} (h : s.turn.Runs log out) : log.length ≤ 1 := by
  have hnone : ∀ res, s.turn = pure res → log.length ≤ 1 := by
    intro res hres
    rw [hres] at h
    rw [(Prog.runs_ret.mp h).1]
    exact Nat.zero_le 1
  cases hpopped : popMin s.heap with
  | none =>
    apply hnone
    rw [turn, hpopped]
  | some popped =>
    obtain ⟨cursor, heap⟩ := popped
    by_cases hpass : s.Passes cursor.entry
    · cases hx : cursor.entry with
      | inl e => exact hnone _ (turn_of_file hpopped hx (hx ▸ hpass))
      | inr d =>
        have hturn := turn_of_dir hpopped hx (hx ▸ hpass)
        cases hpath : s.mapper.keyToHdfsPath d with
        | none => exact hnone _ (by rw [hturn, hpath])
        | some path =>
          rw [hturn, hpath] at h
          exact (openDir_length h).le
    · exact hnone _ (turn_of_not_passes hpopped hpass)

/-- So a turn is one against a table that gives its reply. -/
theorem turn_runs {t : Turn} (h : s.turn.Runs log (t, s')) :
    ∃ lister, Turned lister s t s' (log.map Sigma.fst) ∧ ∀ e ∈ log, lister e.1 = e.2 := by
  obtain ⟨lister, hlister⟩ : ∃ lister : Str → Except HdfsError DirListing,
      ∀ e ∈ log, lister e.1 = e.2 := by
    have hlen := turn_length h
    rcases log with _ | ⟨e, rest⟩
    · exact ⟨fun _ => .error .noSASLMechanism, by simp⟩
    · obtain rfl : rest = [] := by simpa using hlen
      exact ⟨fun _ => e.2, by simp⟩
  obtain ⟨heval, htrace⟩ := h.eq_eval hlister
  have hturned := turn_turned lister s
  rw [heval, htrace] at hturned
  exact ⟨lister, hturned, hlister⟩

/-! ## Runs -/

/-- The states that the engine goes through, with the replies and the emitted entries so far. -/
inductive Reached (fresh : SortedListing) : List Exchange → List ListEntry → SortedListing → Prop
  | seeded {log : List Exchange} {s : SortedListing} (h : fresh.seed.Runs log (.ok s)) : Reached fresh log [] s
  | turned {log log' : List Exchange} {out : List ListEntry} {s s' : SortedListing} {t : Turn}
      (h : Reached fresh log out s) (hturn : s.turn.Runs log' (t, s')) :
      Reached fresh (log ++ log') (out ++ t.emitted) s'

variable {fresh : SortedListing} {out : List ListEntry}

/-- A turn that stops found nothing pending. -/
theorem stop_empty (h : s.turn.Runs log (.stop, s')) : pending s'.heap = [] := by
  obtain ⟨lister, hturned, -⟩ := turn_runs h
  generalize log.map Sigma.fst = visited at hturned
  cases hturned with
  | stop hnone => exact hnone

/-- What a seeded engine yields it reaches by turns: nothing is pending, or an entry was emitted. -/
theorem nextLoop_reached {fuel : ℕ} {entry : Option ListEntry} (h : Reached fresh log out s)
    {log' : List Exchange} (hnext : (nextLoop fuel s).Runs log' (.ok entry, s')) :
    Reached fresh (log ++ log') (out ++ entry.toList) s' ∧ (entry = none → pending s'.heap = []) := by
  induction fuel generalizing log out s log' with
  | zero => simp [nextLoop] at hnext
  | succ fuel ih =>
    rw [nextLoop, Prog.runs_bind] at hnext
    obtain ⟨first, second, ⟨t, mid⟩, rfl, hturn, hrest⟩ := hnext
    have hmid : Reached fresh (log ++ first) (out ++ t.emitted) mid := h.turned hturn
    cases t with
    | emit e =>
      obtain ⟨rfl, heq⟩ := Prog.runs_ret.mp hrest
      obtain ⟨hentry, rfl⟩ := Prod.mk.inj heq
      obtain rfl := Except.ok.inj hentry
      exact ⟨by simpa [Turn.emitted] using hmid, by simp⟩
    | stop =>
      obtain ⟨rfl, heq⟩ := Prog.runs_ret.mp hrest
      obtain ⟨hentry, rfl⟩ := Prod.mk.inj heq
      obtain rfl := Except.ok.inj hentry
      exact ⟨by simpa [Turn.emitted] using hmid, fun _ => stop_empty hturn⟩
    | fail err =>
      obtain ⟨-, heq⟩ := Prog.runs_ret.mp hrest
      simp at heq
    | again =>
      have hmid : Reached fresh (log ++ first) out mid := by simpa [Turn.emitted] using hmid
      rw [← List.append_assoc]
      exact ih hmid hrest

/-- A fresh engine that has not been seeded. -/
structure IsFresh (fresh : SortedListing) : Prop where
  heap : fresh.heap = []
  unseeded : fresh.startSeeded = false
  alive : fresh.exhausted = false

theorem isFresh_new (start pre : Str) (after : Option Str) (mapper : PathMapper) :
    (new start pre after mapper).IsFresh := ⟨rfl, rfl, rfl⟩

/-- What seeding does: it lists the start, and pushes the listing or finds nothing. -/
theorem seed_runs (h : fresh.seed.Runs log (.ok s)) :
    (∃ listing, log = [⟨fresh.start, .ok listing⟩] ∧
        s = { fresh with startSeeded := true }.pushListing listing) ∨
      (∃ path, log = [⟨fresh.start, .error (.fileNotFound path)⟩] ∧
        s = { fresh with startSeeded := true, exhausted := true }) := by
  unfold seed at h
  simp only [Prog.perform_bind] at h
  obtain ⟨reply, rest, rfl, hrest⟩ := Prog.runs_call.mp h
  cases reply with
  | ok listing =>
    obtain ⟨rfl, heq⟩ := Prog.runs_ret.mp hrest
    exact .inl ⟨listing, rfl, (Except.ok.inj heq).symm⟩
  | error err =>
    cases err with
    | fileNotFound path =>
      obtain ⟨rfl, heq⟩ := Prog.runs_ret.mp hrest
      exact .inr ⟨path, rfl, (Except.ok.inj heq).symm⟩
    | _ =>
      obtain ⟨-, heq⟩ := Prog.runs_ret.mp hrest
      contradiction

/-- A turn leaves the arguments of the listing alone. -/
theorem turned_frame {lister : Str → Except HdfsError DirListing} {t : Turn} {visited : List Str}
    (h : Turned lister s t s' visited) :
    s'.mapper = s.mapper ∧ s'.pre = s.pre ∧ s'.after = s.after ∧ s'.startSeeded = s.startSeeded ∧
      (s'.exhausted = true → s.exhausted = true ∨ pending s'.heap = []) := by
  cases h with
  | stop hnone => exact ⟨rfl, rfl, rfl, rfl, fun _ => .inr hnone⟩
  | skip | emit | opened | passed | failed => exact ⟨rfl, rfl, rfl, rfl, fun h => .inl h⟩

/-- The state that a run has reached is seeded, and nothing is pending once it is exhausted. -/
theorem Reached.seeded_of_fresh (hfresh : fresh.IsFresh) (h : Reached fresh log out s) :
    s.mapper = fresh.mapper ∧ s.pre = fresh.pre ∧ s.after = fresh.after ∧ s.startSeeded = true ∧
      (s.exhausted = true → pending s.heap = []) := by
  induction h with
  | seeded h =>
    rcases seed_runs h with ⟨listing, -, rfl⟩ | ⟨path, -, rfl⟩
    · refine ⟨rfl, rfl, rfl, rfl, fun hex => ?_⟩
      have halive : fresh.exhausted = true := hex
      rw [hfresh.alive] at halive
      contradiction
    · exact ⟨rfl, rfl, rfl, rfl, fun _ => by simp [hfresh.heap]⟩
  | turned _ hturn ih =>
    obtain ⟨hmapper, hpre, hafter, hseeded, hempty⟩ := ih
    obtain ⟨lister, hturned, -⟩ := turn_runs hturn
    obtain ⟨h1, h2, h3, h4, h5⟩ := turned_frame hturned
    refine ⟨h1.trans hmapper, h2.trans hpre, h3.trans hafter, h4.trans hseeded, fun hex => ?_⟩
    rcases h5 hex with hold | hnone
    · -- an exhausted engine can only stop again
      have hnil := hempty hold
      generalize List.map Sigma.fst _ = visited at hturned
      cases hturned with
      | stop hnone => exact hnone
      | skip hpop => exact absurd (hnil ▸ hpop.perm).symm.eq_nil (List.cons_ne_nil _ _)
      | emit hpop => exact absurd (hnil ▸ hpop.perm).symm.eq_nil (List.cons_ne_nil _ _)
      | opened hpop => exact absurd (hnil ▸ hpop.perm).symm.eq_nil (List.cons_ne_nil _ _)
      | passed hpop => exact absurd (hnil ▸ hpop.perm).symm.eq_nil (List.cons_ne_nil _ _)
      | failed hpop => exact absurd (hnil ▸ hpop.perm).symm.eq_nil (List.cons_ne_nil _ _)
    · exact hnone

/-- A run that has reached a state, or has not begun. -/
def Started (fresh : SortedListing) (log : List Exchange) (out : List ListEntry)
    (s : SortedListing) : Prop :=
  Reached fresh log out s ∨ (log = [] ∧ out = [] ∧ s = fresh)

/-- What the engine yields it reaches: nothing is pending, or an entry was emitted. -/
theorem nextEntry_reached (hfresh : fresh.IsFresh) {fuel : ℕ} {entry : Option ListEntry}
    (h : Started fresh log out s) {log' : List Exchange}
    (hnext : (nextEntry fuel s).Runs log' (.ok entry, s')) :
    Reached fresh (log ++ log') (out ++ entry.toList) s' ∧ (entry = none → pending s'.heap = []) := by
  rw [nextEntry] at hnext
  have hexhausted : ∀ {log log' out s}, Reached fresh log out s → s.exhausted = true →
      (pure (.ok none, s) : Listing (Except ListError (Option ListEntry) × SortedListing)).Runs log'
        (.ok entry, s') →
      Reached fresh (log ++ log') (out ++ entry.toList) s' ∧
        (entry = none → pending s'.heap = []) := by
    intro log log' out s h hex hret
    obtain ⟨rfl, heq⟩ := Prog.runs_ret.mp hret
    obtain ⟨hentry, rfl⟩ := Prod.mk.inj heq
    obtain rfl := Except.ok.inj hentry
    exact ⟨by simpa using h, fun _ => (h.seeded_of_fresh hfresh).2.2.2.2 hex⟩
  rcases h with h | ⟨rfl, rfl, rfl⟩
  · obtain ⟨-, -, -, hseeded, -⟩ := h.seeded_of_fresh hfresh
    rw [if_pos hseeded] at hnext
    split at hnext
    · rename_i hex
      exact hexhausted h hex hnext
    · exact nextLoop_reached h hnext
  · rw [if_neg (by simp [hfresh.alive]), if_neg (by simp [hfresh.unseeded]), Prog.runs_bind] at hnext
    obtain ⟨first, second, result, rfl, hseed, hrest⟩ := hnext
    cases result with
    | error err =>
      obtain ⟨-, heq⟩ := Prog.runs_ret.mp hrest
      simp at heq
    | ok mid =>
      have hmid : Reached s first [] mid := .seeded hseed
      simp only [] at hrest
      split at hrest
      · rename_i hex
        have hdone := hexhausted hmid hex hrest
        exact hdone
      · have hdone := nextLoop_reached hmid hrest
        exact hdone

/-- How a returned page ended: all entries are on it and nothing is pending, or it is full and one
entry more was emitted. -/
structure Collected (fresh : SortedListing) (limit : Option ℕ) (log : List Exchange)
    (page : List ListEntry) (truncated : Bool) : Prop where
  bound : ∀ n, limit = some n → page.length ≤ n
  ended : truncated = false → ∃ s, Reached fresh log page s ∧ pending s.heap = []
  more : truncated = true → limit = some page.length ∧
    ∃ s e, Reached fresh log (page ++ [e]) s

/-- The loop of a page reaches what it returns. -/
theorem collectLoop_reached (hfresh : fresh.IsFresh) {fuel rounds : ℕ} {limit : Option ℕ}
    {page : List ListEntry} {truncated : Bool} (h : Started fresh log out s)
    (hbound : ∀ n, limit = some n → out.length ≤ n) {log' : List Exchange}
    (hpage : (collectLoop fuel limit rounds s out).Runs log' (.ok (page, truncated))) :
    Collected fresh limit (log ++ log') page truncated := by
  induction rounds generalizing log out s log' with
  | zero => simp [collectLoop] at hpage
  | succ rounds ih =>
    rw [collectLoop] at hpage
    split at hpage
    all_goals
      rename_i hfull
      rw [Prog.runs_bind] at hpage
      obtain ⟨first, second, ⟨result, mid⟩, rfl, hnext, hrest⟩ := hpage
    · -- the page is full, and the pull is the probe for another entry
      obtain ⟨rfl, heq⟩ := Prog.runs_ret.mp hrest
      cases result with
      | error err => simp [Except.map] at heq
      | ok entry =>
        obtain ⟨rfl, rfl⟩ := Prod.mk.inj (Except.ok.inj heq)
        obtain ⟨hmid, hnone⟩ := nextEntry_reached hfresh h hnext
        rw [List.append_nil]
        cases entry with
        | none =>
          exact ⟨hbound, fun _ => ⟨mid, by simpa using hmid, hnone rfl⟩, by simp⟩
        | some e => exact ⟨hbound, by simp, fun _ => ⟨hfull.symm, mid, e, by simpa using hmid⟩⟩
    · cases result with
      | error err =>
        obtain ⟨-, heq⟩ := Prog.runs_ret.mp hrest
        contradiction
      | ok entry =>
        obtain ⟨hmid, hnone⟩ := nextEntry_reached hfresh h hnext
        cases entry with
        | none =>
          obtain ⟨rfl, heq⟩ := Prog.runs_ret.mp hrest
          obtain ⟨rfl, rfl⟩ := Prod.mk.inj (Except.ok.inj heq)
          rw [List.append_nil]
          exact ⟨hbound, fun _ => ⟨mid, by simpa using hmid, hnone rfl⟩, by simp⟩
        | some e =>
          rw [← List.append_assoc]
          apply ih (.inl hmid) _ hrest
          intro n hn
          have hle := hbound n hn
          have hne : out.length ≠ n := fun heq => hfull (by rw [heq, hn])
          rw [Option.toList_some, List.length_append, List.length_singleton]
          omega

/-- A page that is returned was reached by turns. -/
theorem collectPage_reached (hfresh : fresh.IsFresh) {fuel : ℕ} {limit : Option ℕ}
    (hlimit : limit ≠ some 0) {page : List ListEntry} {truncated : Bool}
    (h : (fresh.collectPage fuel limit).Runs log (.ok (page, truncated))) :
    Collected fresh limit log page truncated := by
  rw [collectPage, if_neg hlimit] at h
  exact collectLoop_reached hfresh (.inr ⟨rfl, rfl, rfl⟩) (by simp) h

/-! ## Pages that fail -/

/-- Whatever the loop of a pull ends with, it got there by turns. -/
theorem nextLoop_turns {fuel : ℕ} (h : Reached fresh log out s) {log' : List Exchange}
    {result : Except ListError (Option ListEntry)}
    (hnext : (nextLoop fuel s).Runs log' (result, s')) :
    ∃ out', Reached fresh (log ++ log') out' s' := by
  induction fuel generalizing log out s log' with
  | zero =>
    obtain ⟨rfl, heq⟩ := Prog.runs_ret.mp hnext
    obtain ⟨-, rfl⟩ := Prod.mk.inj heq
    exact ⟨out, by rwa [List.append_nil]⟩
  | succ fuel ih =>
    rw [nextLoop, Prog.runs_bind] at hnext
    obtain ⟨first, second, ⟨t, mid⟩, rfl, hturn, hrest⟩ := hnext
    have hmid : Reached fresh (log ++ first) (out ++ t.emitted) mid := h.turned hturn
    rw [← List.append_assoc]
    cases t with
    | again => exact ih hmid hrest
    | emit | stop | fail =>
      obtain ⟨rfl, heq⟩ := Prog.runs_ret.mp hrest
      obtain ⟨-, rfl⟩ := Prod.mk.inj heq
      exact ⟨_, by rwa [List.append_nil]⟩

/-- Whatever a pull ends with, the engine got there by turns, or could not list the start. -/
theorem nextEntry_turns (hfresh : fresh.IsFresh) {fuel : ℕ} (h : Started fresh log out s)
    {log' : List Exchange} {result : Except ListError (Option ListEntry)}
    (hnext : (nextEntry fuel s).Runs log' (result, s')) :
    (∃ out', Reached fresh (log ++ log') out' s') ∨
      (∃ reply, log ++ log' = [⟨fresh.start, reply⟩]) ∧ ∃ err, result = .error err := by
  rw [nextEntry] at hnext
  rcases h with h | ⟨rfl, rfl, rfl⟩
  · obtain ⟨-, -, -, hseeded, -⟩ := h.seeded_of_fresh hfresh
    rw [if_pos hseeded] at hnext
    split at hnext
    · obtain ⟨rfl, heq⟩ := Prog.runs_ret.mp hnext
      obtain ⟨-, rfl⟩ := Prod.mk.inj heq
      exact .inl ⟨out, by rwa [List.append_nil]⟩
    · exact .inl (nextLoop_turns h hnext)
  · rw [if_neg (by simp [hfresh.alive]), if_neg (by simp [hfresh.unseeded]), Prog.runs_bind] at hnext
    obtain ⟨first, second, seeded, rfl, hseed, hrest⟩ := hnext
    cases seeded with
    | error err =>
      obtain ⟨rfl, heq⟩ := Prog.runs_ret.mp hrest
      obtain ⟨rfl, -⟩ := Prod.mk.inj heq
      unfold seed at hseed
      simp only [Prog.perform_bind] at hseed
      obtain ⟨reply, rest, rfl, hreply⟩ := Prog.runs_call.mp hseed
      suffices hnil : rest = [] from .inr ⟨⟨reply, by simp [hnil]⟩, _, rfl⟩
      split at hreply <;> exact (Prog.runs_ret.mp hreply).1
    | ok mid =>
      have hmid : Reached s first [] mid := .seeded hseed
      simp only [] at hrest
      split at hrest
      · obtain ⟨rfl, heq⟩ := Prog.runs_ret.mp hrest
        obtain ⟨-, rfl⟩ := Prod.mk.inj heq
        exact .inl ⟨[], by simpa using hmid⟩
      · exact .inl (nextLoop_turns hmid hrest)

/-- Whatever a page ends with, its replies are those of turns, or at most one about the start. -/
theorem collectLoop_turns (hfresh : fresh.IsFresh) {fuel rounds : ℕ} {limit : Option ℕ}
    {page : List ListEntry} {result : Except ListError (List ListEntry × Bool)}
    (h : Started fresh log out s) {log' : List Exchange}
    (hpage : (collectLoop fuel limit rounds s page).Runs log' result) :
    (∃ out' s', Started fresh (log ++ log') out' s') ∨
      ∃ reply, log ++ log' = [⟨fresh.start, reply⟩] := by
  induction rounds generalizing log out s page log' with
  | zero =>
    obtain ⟨rfl, -⟩ := Prog.runs_ret.mp hpage
    exact .inl ⟨out, s, by rwa [List.append_nil]⟩
  | succ rounds ih =>
    rw [collectLoop] at hpage
    split at hpage
    all_goals
      rw [Prog.runs_bind] at hpage
      obtain ⟨first, second, ⟨pulled, mid⟩, rfl, hnext, hrest⟩ := hpage
      have hturns := nextEntry_turns hfresh h hnext
    · obtain ⟨rfl, -⟩ := Prog.runs_ret.mp hrest
      rw [List.append_nil]
      rcases hturns with hmid | hstart
      · exact .inl (hmid.imp fun _ h => ⟨mid, .inl h⟩)
      · exact .inr hstart.1
    · cases pulled with
      | error err =>
        obtain ⟨rfl, -⟩ := Prog.runs_ret.mp hrest
        rw [List.append_nil]
        rcases hturns with hmid | hstart
        · exact .inl (hmid.imp fun _ h => ⟨mid, .inl h⟩)
        · exact .inr hstart.1
      | ok entry =>
        obtain ⟨out', hmid⟩ := hturns.resolve_right (by simp)
        cases entry with
        | none =>
          obtain ⟨rfl, -⟩ := Prog.runs_ret.mp hrest
          exact .inl ⟨out', mid, .inl (by rwa [List.append_nil])⟩
        | some e =>
          rw [← List.append_assoc]
          exact ih (.inl hmid) hrest

end SortedListing

end HdfsS3Gateway
