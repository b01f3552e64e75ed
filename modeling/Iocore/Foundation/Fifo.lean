import Iocore.Foundation.System

/-!
# First-in first-out queues

The abstract queue is a sequence, oldest element first.  In every run the
elements that went in are, in order, those that came out followed by those
still there.
-/

namespace Iocore.Foundation

universe u

inductive FifoOp (T : Type u) where
  | push (t : T)
  | pop (t : T)
  deriving DecidableEq, Repr

variable {T : Type u}

def fifo (T : Type u) : System (List T) (FifoOp T) where
  init xs := xs = []
  step xs op xs' :=
    match op with
    | .push t => xs' = xs ++ [t]
    | .pop t => xs = t :: xs'

namespace FifoOp

def pushed : FifoOp T → Option T
  | .push t => some t
  | .pop _ => none

def popped : FifoOp T → Option T
  | .push _ => none
  | .pop t => some t

/-- The elements pushed by operations listed newest first, oldest first. -/
def pushes (ops : List (FifoOp T)) : List T := (ops.filterMap pushed).reverse

def pops (ops : List (FifoOp T)) : List T := (ops.filterMap popped).reverse

@[simp] theorem pushes_push (t : T) (ops : List (FifoOp T)) :
    pushes (.push t :: ops) = pushes ops ++ [t] := by
  simp [pushes, pushed]

@[simp] theorem pushes_pop (t : T) (ops : List (FifoOp T)) :
    pushes (.pop t :: ops) = pushes ops := by
  simp [pushes, pushed, List.filterMap_cons]

@[simp] theorem pops_push (t : T) (ops : List (FifoOp T)) :
    pops (.push t :: ops) = pops ops := by
  simp [pops, popped, List.filterMap_cons]

@[simp] theorem pops_pop (t : T) (ops : List (FifoOp T)) :
    pops (.pop t :: ops) = pops ops ++ [t] := by
  simp [pops, popped]

end FifoOp

open FifoOp

theorem fifo_balance {tr : History (List T) (FifoOp T)} {xs : List T}
    (run : (fifo T).Exec tr xs) :
    pushes (tr.map Prod.snd) = pops (tr.map Prod.snd) ++ xs := by
  induction run with
  | start init =>
      obtain rfl := init
      rfl
  | @next tr xs xs' op run step ih =>
      cases op with
      | push t =>
          obtain rfl : xs' = xs ++ [t] := step
          simp [ih]
      | pop t =>
          obtain rfl : xs = t :: xs' := step
          simp [ih]

end Iocore.Foundation
