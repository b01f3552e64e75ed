import Mathlib.Logic.Basic

/-!
# Atomic read-modify-write operations

Each operation is one indivisible step on a memory cell.  It returns what its
caller sees together with the new contents of the cell.
-/

namespace Iocore.Foundation

universe u

variable {α : Type u} [DecidableEq α]

structure Exchange (α : Type u) where
  success : Bool
  cell : α
  /-- The caller's `expected` argument, overwritten with the cell on failure. -/
  expected : α
  deriving DecidableEq, Repr

/-- `compare_exchange_strong`: it fails only when the cell differs. -/
def compareExchangeStrong (cell expected desired : α) : Exchange α :=
  if cell = expected then ⟨true, desired, expected⟩ else ⟨false, cell, cell⟩

@[simp] theorem compareExchangeStrong_self (expected desired : α) :
    compareExchangeStrong expected expected desired =
      ⟨true, desired, expected⟩ := by
  simp [compareExchangeStrong]

theorem compareExchangeStrong_ne {cell expected : α} (h : cell ≠ expected)
    (desired : α) :
    compareExchangeStrong cell expected desired = ⟨false, cell, cell⟩ := by
  simp [compareExchangeStrong, h]

/-- `__sync_bool_compare_and_swap`: whether it swapped, and the new cell. -/
def syncBoolCompareAndSwap (cell old new : α) : Bool × α :=
  if cell = old then (true, new) else (false, cell)

@[simp] theorem syncBoolCompareAndSwap_self (old new : α) :
    syncBoolCompareAndSwap old old new = (true, new) := by
  simp [syncBoolCompareAndSwap]

theorem syncBoolCompareAndSwap_ne {cell old : α} (h : cell ≠ old) (new : α) :
    syncBoolCompareAndSwap cell old new = (false, cell) := by
  simp [syncBoolCompareAndSwap, h]

end Iocore.Foundation
