import Mathlib.Algebra.Group.Nat.Defs
import Mathlib.Tactic.Basic

/-!
# Unsigned arithmetic that records overflow

A value computed with unsigned machine arithmetic together with the fact whether some operation on
the way left the range of its type. The value is the one a release build computes; the flag is set
exactly when a debug build would have stopped.
-/

namespace Overflow

/-- A computed value and whether an operation on the way overflowed. -/
structure Tracked (α : Type) where
  value : α
  overflowed : Bool
  deriving DecidableEq, Repr

namespace Tracked

variable {α β : Type}

/-- Run the continuation on the value, keeping the overflows of both parts. -/
def bind (x : Tracked α) (f : α → Tracked β) : Tracked β :=
  ⟨(f x.value).value, x.overflowed || (f x.value).overflowed⟩

instance : Monad Tracked where
  pure a := ⟨a, false⟩
  bind := bind

@[simp] theorem value_pure (a : α) : (pure a : Tracked α).value = a := rfl

@[simp] theorem overflowed_pure (a : α) : (pure a : Tracked α).overflowed = false := rfl

@[simp] theorem value_bind (x : Tracked α) (f : α → Tracked β) :
    (x >>= f).value = (f x.value).value := rfl

@[simp] theorem overflowed_bind (x : Tracked α) (f : α → Tracked β) :
    (x >>= f).overflowed = (x.overflowed || (f x.value).overflowed) := rfl

end Tracked

/-- `a - b` on `u64`. -/
def subU64 (a b : UInt64) : Tracked UInt64 := ⟨a - b, decide (a < b)⟩

/-- `a + b` on `u64`. -/
def addU64 (a b : UInt64) : Tracked UInt64 := ⟨a + b, decide (2 ^ 64 ≤ a.toNat + b.toNat)⟩

/-- `a - b` on a `usize` with the given largest value. -/
def subUsize (max a b : ℕ) : Tracked ℕ := ⟨(a + (max + 1) - b) % (max + 1), decide (a < b)⟩

/-- `a + b` on a `usize` with the given largest value. -/
def addUsize (max a b : ℕ) : Tracked ℕ := ⟨(a + b) % (max + 1), decide (max < a + b)⟩

@[simp] theorem value_subU64 (a b : UInt64) : (subU64 a b).value = a - b := rfl

@[simp] theorem value_addU64 (a b : UInt64) : (addU64 a b).value = a + b := rfl

@[simp] theorem overflowed_subU64 (a b : UInt64) :
    (subU64 a b).overflowed = decide (a < b) := rfl

@[simp] theorem overflowed_addU64 (a b : UInt64) :
    (addU64 a b).overflowed = decide (2 ^ 64 ≤ a.toNat + b.toNat) := rfl

@[simp] theorem overflowed_subUsize (max a b : ℕ) :
    (subUsize max a b).overflowed = decide (a < b) := rfl

/-- A difference that does not overflow is the difference. -/
theorem value_subUsize {max a b : ℕ} (ha : a ≤ max) (h : b ≤ a) :
    (subUsize max a b).value = a - b := by
  have hsub : a + (max + 1) - b = a - b + (max + 1) := by omega
  rw [subUsize, hsub, Nat.add_mod_right]
  exact Nat.mod_eq_of_lt (by omega)

@[simp] theorem overflowed_addUsize (max a b : ℕ) :
    (addUsize max a b).overflowed = decide (max < a + b) := rfl

/-- A sum that does not overflow is the sum. -/
theorem value_addUsize {max a b : ℕ} (h : a + b ≤ max) : (addUsize max a b).value = a + b :=
  Nat.mod_eq_of_lt (Nat.lt_succ_of_le h)

end Overflow
