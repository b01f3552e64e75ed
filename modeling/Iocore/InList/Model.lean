import Iocore.Defs
import Iocore.Foundation.Links

/-!
# Intrusive lists

`InList<T>` links elements through fields of the elements themselves, so the
operations act on a heap that all lists share.  A heap is the two link fields
`next_` and `prev_` of every element; a list is its two end pointers.

An element argument stands for a pointer that is not `NULL`, so the check
`ASSERT(t)` at the head of `Push` and `Unlink` has nothing to test.
-/

namespace Iocore

open Foundation

@[ext]
structure Heap (T : Type) where
  next : T → Option T
  prev : T → Option T

structure InList (T : Type) where
  head : Option T
  tail : Option T
  deriving DecidableEq, Repr

def Heap.initial (T : Type) : Heap T := ⟨fun _ => none, fun _ => none⟩

def InList.initial (T : Type) : InList T := ⟨none, none⟩

variable {T : Type} [DecidableEq T]

/-- `if (p) p->next_ = value` -/
def Heap.setNext (heap : Heap T) (p value : Option T) : Heap T :=
  { heap with next := store heap.next p value }

def Heap.setPrev (heap : Heap T) (p value : Option T) : Heap T :=
  { heap with prev := store heap.prev p value }

def Heap.clear (heap : Heap T) (t : T) : Heap T :=
  (heap.setPrev (some t) none).setNext (some t) none

/-- `!p || !p->field` -/
def nullLink (link : T → Option T) : Option T → Bool
  | none => true
  | some x => (link x).isNone

namespace InList

variable (build : Build)

def push (heap : Heap T) (list : InList T) (t : T) :
    Code (Heap T × InList T) := do
  build.assert ((list.head.isNone && list.tail.isNone) ||
    (list.head.isSome && list.tail.isSome))
  build.assert (nullLink heap.prev list.head)
  build.assert (nullLink heap.next list.tail)
  build.assert (heap.next t).isNone
  build.assert (heap.prev t).isNone
  let heap := heap.setNext (some t) list.head
  let heap := heap.setPrev list.head (some t)
  let list := { list with head := some t }
  let list :=
    if list.tail.isNone then { list with tail := list.head } else list
  return (heap, list)

def unlink (heap : Heap T) (list : InList T) (t : T) :
    Code (Heap T × InList T) := do
  build.assert (list.head.isSome && list.tail.isSome)
  build.assert ((heap.prev t).isSome || list.head = some t)
  build.assert ((heap.next t).isSome || list.tail = some t)
  let heap := heap.setNext (heap.prev t) (heap.next t)
  let heap := heap.setPrev (heap.next t) (heap.prev t)
  let list :=
    if list.tail = some t then { list with tail := heap.prev t } else list
  let list :=
    if list.head = some t then { list with head := heap.next t } else list
  return (heap.clear t, list)

def pop (heap : Heap T) (list : InList T) : Code (T × Heap T × InList T) := do
  build.assert (list.tail.isSome && list.head.isSome)
  build.assert (nullLink heap.next list.tail)
  build.assert (nullLink heap.prev list.head)
  let t ← deref list.tail
  let list := { list with tail := heap.prev t }
  let heap := heap.setNext list.tail none
  if some t = list.head then
    build.assert list.tail.isNone
    return (t, heap.clear t, { list with head := none })
  else
    return (t, heap.clear t, list)

def isEmpty (list : InList T) : Bool :=
  list.head.isNone && list.tail.isNone

def destroy (list : InList T) : Code Unit := do
  invariant list.head.isNone
  invariant list.tail.isNone

end InList

end Iocore
