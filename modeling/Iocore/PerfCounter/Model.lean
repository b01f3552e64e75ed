import Iocore.Defs
import Iocore.Foundation.Atomic
import Iocore.Foundation.System
import Mathlib.Algebra.Group.Nat.Defs

/-!
# Performance counters

The atomic fields of a `PerfCounter` and the steps of `Update`.  The name, the
units and the type of a counter play no part in `Update`.
-/

namespace Iocore

structure PerfCounter where
  val : UInt64
  count : UInt64
  min : UInt64
  max : UInt64
  bucket : Fin 32 → UInt32

namespace PerfCounter

open Foundation Foundation.System

def UINT32_MAX : UInt64 := 0xFFFFFFFF

def construct : PerfCounter := ⟨0, 0, UINT32_MAX, 0, fun _ => 0⟩

def bucketLoop : Nat → UInt32 → Nat → Nat
  | 0, _, count => count
  | left + 1, tmp, count =>
      let tmp := tmp >>> 1
      if tmp = 0 then count else bucketLoop left tmp (count + 1)

def bucketCount (val : UInt32) : Nat := bucketLoop 32 val 0

def updateBucket (counter : PerfCounter) (val : UInt32) :
    Code PerfCounter :=
  if h : bucketCount val < 32 then
    let i : Fin 32 := ⟨bucketCount val, h⟩
    .ok { counter with
      bucket := Function.update counter.bucket i (counter.bucket i + 1) }
  else .error .aborted

/--
The next atomic step of a call of `Update`.  Inside a loop the call knows that
its value has beaten the snapshot.
-/
inductive Pc where
  | idle
  | addVal (val : UInt32)
  | addCount (val : UInt32)
  | loadMin (val : UInt32)
  | exchangeMin (val : UInt32) (minCount : UInt64)
      (less : val.toUInt64 < minCount)
  | loadMax (val : UInt32)
  | exchangeMax (val : UInt32) (maxCount : UInt64)
      (greater : val.toUInt64 > maxCount)
  | addBucket (val : UInt32)
  deriving DecidableEq, Repr

structure State (Tid : Type) where
  counter : PerfCounter
  pc : Tid → Pc

inductive Action (Tid : Type) where
  | update (i : Tid) (val : UInt32)
  | next (i : Tid)
  deriving DecidableEq, Repr

variable {Tid : Type} [DecidableEq Tid]

def initial (Tid : Type) : State Tid := ⟨construct, fun _ => .idle⟩

def State.goto (s : State Tid) (i : Tid) (pc : Pc) (counter : PerfCounter) :
    State Tid :=
  ⟨counter, Function.update s.pc i pc⟩

def advance (s : State Tid) (i : Tid) : Code (State Tid) :=
  let counter := s.counter
  match s.pc i with
  | .idle => .error .blocked
  | .addVal val =>
      .ok (s.goto i (.addCount val)
        { counter with val := counter.val + val.toUInt64 })
  | .addCount val =>
      .ok (s.goto i (.loadMin val) { counter with count := counter.count + 1 })
  | .loadMin val =>
      let minCount := counter.min
      if h : val.toUInt64 < minCount then
        .ok (s.goto i (.exchangeMin val minCount h) counter)
      else .ok (s.goto i (.loadMax val) counter)
  | .exchangeMin val minCount _ =>
      let exchange := compareExchangeStrong counter.min minCount val.toUInt64
      .ok (s.goto i (.loadMin val) { counter with min := exchange.cell })
  | .loadMax val =>
      let maxCount := counter.max
      if h : val.toUInt64 > maxCount then
        .ok (s.goto i (.exchangeMax val maxCount h) counter)
      else .ok (s.goto i (.addBucket val) counter)
  | .exchangeMax val maxCount _ =>
      let exchange := compareExchangeStrong counter.max maxCount val.toUInt64
      .ok (s.goto i (.loadMax val) { counter with max := exchange.cell })
  | .addBucket val => do
      let counter ← counter.updateBucket val
      return s.goto i .idle counter

def exec (s : State Tid) : Action Tid → Code (State Tid)
  | .update i val =>
      match s.pc i with
      | .idle => .ok (s.goto i (.addVal val) s.counter)
      | _ => .error .blocked
  | .next i => advance s i

def system (Tid : Type) [DecidableEq Tid] : System (State Tid) (Action Tid) :=
  .ofFunction (fun s => s = initial Tid) exec

def begun (tr : History (State Tid) (Action Tid)) : List UInt32 :=
  observed (fun _ a => match a with
    | .update _ val => some val
    | .next _ => none) tr

/-! ## Buckets -/

/-- The range the comment in `UpdateBucket` gives for a bucket. -/
def Belongs (b : Fin 32) (val : UInt32) : Prop :=
  (if b.val = 0 then 0 else 2 ^ b.val) ≤ val.toNat ∧ val.toNat < 2 ^ (b.val + 1)

instance (b : Fin 32) (val : UInt32) : Decidable (Belongs b val) :=
  inferInstanceAs (Decidable (_ ∧ _))

theorem bucketLoop_eq (left : Nat) (tmp : UInt32) (count : Nat)
    (h : tmp.toNat < 2 ^ (left + 1)) :
    bucketLoop left tmp count = count + tmp.toNat.log2 := by
  induction left generalizing tmp count with
  | zero =>
      have hsmall : ¬ 2 ≤ tmp.toNat := by omega
      rw [Nat.log2_def, if_neg hsmall]
      rfl
  | succ left ih =>
      have hhalf : (tmp >>> 1).toNat = tmp.toNat / 2 := by
        simp [Nat.shiftRight_eq_div_pow]
      rw [bucketLoop]
      by_cases hzero : tmp >>> 1 = 0
      · have hsmall : ¬ 2 ≤ tmp.toNat := by
          rw [hzero] at hhalf
          have : (0 : UInt32).toNat = 0 := rfl
          omega
        rw [if_pos hzero, Nat.log2_def, if_neg hsmall, Nat.add_zero]
      · have hlarge : 2 ≤ tmp.toNat := by
          by_contra hsmall
          refine hzero (UInt32.toNat_inj.mp ?_)
          rw [hhalf, Nat.div_eq_of_lt (by omega)]
          rfl
        rw [if_neg hzero, ih _ _ (by omega), hhalf, Nat.log2_def tmp.toNat,
          if_pos hlarge]
        omega

theorem bucketCount_eq (val : UInt32) : bucketCount val = val.toNat.log2 := by
  have hval := val.toNat_lt
  rw [bucketCount, bucketLoop_eq 32 val 0 (by omega), Nat.zero_add]

theorem bucketCount_lt (val : UInt32) : bucketCount val < 32 := by
  rw [bucketCount_eq]
  have hval := val.toNat_lt
  by_cases hzero : val.toNat = 0
  · rw [hzero]
    decide
  · exact (Nat.log2_lt hzero).mpr hval

theorem belongs_iff (b : Fin 32) (val : UInt32) :
    Belongs b val ↔ b.val = bucketCount val := by
  rw [bucketCount_eq, Belongs]
  by_cases hzero : val.toNat = 0
  · by_cases hb : b.val = 0
    · simp [hb, hzero]
    · simp [hzero, hb]
  · have hlog : b.val = val.toNat.log2 ↔ _ :=
      eq_comm.trans (Nat.log2_eq_iff hzero)
    rw [hlog]
    by_cases hb : b.val = 0
    · simp only [hb, if_true]
      omega
    · rw [if_neg hb]

def bucketOf (val : UInt32) : Fin 32 := ⟨bucketCount val, bucketCount_lt val⟩

theorem belongs_iff_eq (b : Fin 32) (val : UInt32) :
    Belongs b val ↔ b = bucketOf val := by
  rw [belongs_iff, Fin.ext_iff]
  rfl

theorem updateBucket_eq_update (counter : PerfCounter) (val : UInt32) :
    counter.updateBucket val = .ok { counter with
      bucket := Function.update counter.bucket (bucketOf val)
        (counter.bucket (bucketOf val) + 1) } :=
  dif_pos (bucketCount_lt val)

theorem updateBucket_eq (counter : PerfCounter) (val : UInt32) :
    counter.updateBucket val = .ok { counter with
      bucket := fun b =>
        if Belongs b val then counter.bucket b + 1 else counter.bucket b } := by
  have hbucket : (fun b =>
      if Belongs b val then counter.bucket b + 1 else counter.bucket b) =
      Function.update counter.bucket (bucketOf val)
        (counter.bucket (bucketOf val) + 1) := by
    funext b
    by_cases hb : b = bucketOf val
    · rw [if_pos ((belongs_iff_eq b val).mpr hb), hb, Function.update_self]
    · rw [if_neg fun h => hb ((belongs_iff_eq b val).mp h),
        Function.update_of_ne hb]
  rw [updateBucket_eq_update, hbucket]

/-! ## A call that runs alone -/

def runAlone : Nat → State Unit → Code PerfCounter
  | 0, _ => .error .blocked
  | left + 1, s =>
      match s.pc () with
      | .idle => .ok s.counter
      | _ => advance s () >>= runAlone left

def update (counter : PerfCounter) (val : UInt32) : Code PerfCounter :=
  runAlone 10 ⟨counter, fun _ => .addVal val⟩

def updated (counter : PerfCounter) (val : UInt32) : PerfCounter where
  val := counter.val + val.toUInt64
  count := counter.count + 1
  min := if val.toUInt64 < counter.min then val.toUInt64 else counter.min
  max := if val.toUInt64 > counter.max then val.toUInt64 else counter.max
  bucket b := if Belongs b val then counter.bucket b + 1 else counter.bucket b

theorem update_eq (counter : PerfCounter) (val : UInt32) :
    counter.update val = .ok (counter.updated val) := by
  by_cases hmin : val.toUInt64 < counter.min <;>
    by_cases hmax : val.toUInt64 > counter.max <;>
      simp [update, runAlone, advance, State.goto, updateBucket_eq, updated,
        hmin, hmax]

end PerfCounter

end Iocore
