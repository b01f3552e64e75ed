import Mathlib.Algebra.BigOperators.Fin
import Mathlib.Data.List.FinRange
import Iocore.Defs
import Iocore.Foundation.Threads

/-!
# The slab pools of a thread

`new pool_t[SLAB_DEPTH]` allocates an array of buffer lists.  Two loops free
what such an array holds: `Cleanup(pool_t *)`, which copies each list, frees
the buffers of the copy and deletes the array, and the one in
`GarbageCollect`, which frees in place and clears.  The memory counts how often
each array was deleted and each buffer freed by them.
-/

namespace Iocore.Thread

open Foundation

abbrev SLAB_DEPTH : Nat := 4

abbrev Slabs (B : Type) := Fin SLAB_DEPTH → List B

structure Memory (B : Type) where
  live : Nat → Option (Slabs B)
  allocated : Nat
  deleted : Nat → Nat
  freed : B → Nat

variable {B : Type} [DecidableEq B]

namespace Memory

def fresh : Memory B := ⟨fun _ => none, 0, fun _ => 0, fun _ => 0⟩

/-- An access to an array, which must not have been deleted. -/
def slabs (memory : Memory B) (pool : Nat) : Code (Slabs B) :=
  match memory.live pool with
  | none => .error .undefinedBehaviour
  | some slabs => .ok slabs

def newPool (memory : Memory B) : Nat × Memory B :=
  (memory.allocated, { memory with
    live := Function.update memory.live memory.allocated (some fun _ => [])
    allocated := memory.allocated + 1 })

def setSlab (memory : Memory B) (pool : Nat) (i : Fin SLAB_DEPTH)
    (slab : List B) : Code (Memory B) := do
  let slabs ← memory.slabs pool
  return { memory with
    live := Function.update memory.live pool
      (some (Function.update slabs i slab)) }

def free (memory : Memory B) (buffer : B) : Memory B :=
  { memory with
    freed := Function.update memory.freed buffer (memory.freed buffer + 1) }

def deletePool (memory : Memory B) (pool : Nat) : Code (Memory B) := do
  let _ ← memory.slabs pool
  return { memory with
    live := Function.update memory.live pool none
    deleted := Function.update memory.deleted pool (memory.deleted pool + 1) }

def listed (slabs : Slabs B) (buffer : B) : Nat :=
  total (fun slab : List B => slab.count buffer) slabs

def held (memory : Memory B) (pool : Nat) (buffer : B) : Nat :=
  (memory.live pool).elim 0 (listed · buffer)

end Memory

/-! ## `Cleanup(pool_t *)` -/

/-- A round of the loop: `l` is a copy of the list. -/
def cleanupSlab (pool : Nat) (memory : Memory B) (i : Fin SLAB_DEPTH) :
    Code (Memory B) := do
  let l := (← memory.slabs pool) i
  return l.foldl Memory.free memory

def cleanupPool (memory : Memory B) (pool : Option Nat) :
    Code (Memory B) := do
  let pool ← deref pool
  let memory ← (List.finRange SLAB_DEPTH).foldlM (cleanupSlab pool) memory
  memory.deletePool pool

/-! ## The loop of `GarbageCollect` -/

def reclaim (i : Fin SLAB_DEPTH) (collected : Memory B × UInt64) (ptr : B) :
    Memory B × UInt64 :=
  let (memory, bytes) := collected
  (memory.free ptr, bytes + UInt64.ofNat ((i + 1) * 512))

def collectSlab (pool : Nat) (collected : Memory B × UInt64)
    (i : Fin SLAB_DEPTH) : Code (Memory B × UInt64) := do
  let slab := (← collected.1.slabs pool) i
  let (memory, bytes) := slab.foldl (reclaim i) collected
  let memory ← memory.setSlab pool i []
  return (memory, bytes)

def collect (memory : Memory B) (pool : Nat) : Code (Memory B × UInt64) :=
  (List.finRange SLAB_DEPTH).foldlM (collectSlab pool) (memory, 0)

/-! ## What the loops do -/

namespace Memory

variable {memory : Memory B} {pool : Nat} {slabs : Slabs B} {buffer : B}

omit [DecidableEq B] in
theorem slabs_eq (h : memory.live pool = some slabs) :
    memory.slabs pool = .ok slabs := by
  rw [Memory.slabs, h]

theorem held_eq (h : memory.live pool = some slabs) :
    memory.held pool buffer = listed slabs buffer := by
  rw [held, h]
  rfl

omit [DecidableEq B] in
theorem setSlab_eq (h : memory.live pool = some slabs)
    (i : Fin SLAB_DEPTH) (slab : List B) :
    memory.setSlab pool i slab = .ok { memory with
      live := Function.update memory.live pool
        (some (Function.update slabs i slab)) } := by
  rw [setSlab, slabs_eq h]
  rfl

theorem listed_update (slabs : Slabs B) (i : Fin SLAB_DEPTH) (slab : List B)
    (buffer : B) :
    listed (Function.update slabs i slab) buffer + (slabs i).count buffer =
      listed slabs buffer + slab.count buffer :=
  total_update _ slabs i slab

theorem listed_eq_zero (h : ∀ i, buffer ∉ slabs i) :
    listed slabs buffer = 0 := by
  unfold listed total
  exact Finset.sum_eq_zero fun i _ => List.count_eq_zero.mpr (h i)

theorem listed_pos {i : Fin SLAB_DEPTH} (h : buffer ∈ slabs i) :
    0 < listed slabs buffer :=
  Nat.lt_of_lt_of_le (List.count_pos_iff.mpr h) (le_total _ slabs i)

def listedIn (slabs : Slabs B) (rounds : List (Fin SLAB_DEPTH))
    (buffer : B) : Nat :=
  (rounds.map fun i => (slabs i).count buffer).sum

theorem listedIn_finRange (slabs : Slabs B) :
    listedIn slabs (List.finRange SLAB_DEPTH) = listed slabs := by
  funext b
  exact (Fin.sum_univ_def fun i => (slabs i).count b).symm

theorem freeAll_eq (memory : Memory B) (l : List B) :
    l.foldl free memory =
      { memory with freed := fun b => memory.freed b + l.count b } := by
  induction l generalizing memory with
  | nil => rfl
  | cons ptr l ih =>
      rw [List.foldl_cons, ih]
      congr 1
      funext b
      by_cases hb : b = ptr
      · subst hb
        simp only [free, Function.update_self, List.count_cons_self]
        omega
      · have hne : ptr ≠ b := fun e => hb e.symm
        simp [free, Function.update_of_ne hb, List.count_cons_of_ne hne]

end Memory

open Memory

variable {memory : Memory B} {pool : Nat} {slabs : Slabs B}

theorem cleanupSlabs_eq (h : memory.live pool = some slabs)
    (rounds : List (Fin SLAB_DEPTH)) :
    rounds.foldlM (cleanupSlab pool) memory = .ok { memory with
      freed := fun b => memory.freed b + listedIn slabs rounds b } := by
  induction rounds generalizing memory with
  | nil => rfl
  | cons i rounds ih =>
      have hround : cleanupSlab pool memory i = .ok { memory with
          freed := fun b => memory.freed b + (slabs i).count b } := by
        simp only [cleanupSlab, slabs_eq h, Code.ok_bind, freeAll_eq]
        rfl
      rw [List.foldlM_cons, hround, Code.ok_bind, ih (by exact h)]
      simp only [listedIn, List.map_cons, List.sum_cons, Nat.add_assoc]

theorem cleanupPool_eq (h : memory.live pool = some slabs) :
    cleanupPool memory (some pool) = .ok { memory with
      live := Function.update memory.live pool none
      deleted := Function.update memory.deleted pool (memory.deleted pool + 1)
      freed := fun b => memory.freed b + listed slabs b } := by
  rw [cleanupPool, deref_some, Code.ok_bind, cleanupSlabs_eq h, Code.ok_bind,
    listedIn_finRange, deletePool, slabs_eq (by exact h)]
  rfl

def slabBytes (slabs : Slabs B) (rounds : List (Fin SLAB_DEPTH)) : Nat :=
  (rounds.map fun i => (slabs i).length * ((i + 1) * 512)).sum

theorem reclaimAll_eq (i : Fin SLAB_DEPTH) (memory : Memory B) (bytes : UInt64)
    (slab : List B) :
    slab.foldl (reclaim i) (memory, bytes) = (slab.foldl free memory,
      bytes + UInt64.ofNat (slab.length * ((i + 1) * 512))) := by
  induction slab generalizing memory bytes with
  | nil => simp
  | cons ptr slab ih =>
      have hlength : (ptr :: slab).length * ((i + 1) * 512) =
          (i + 1) * 512 + slab.length * ((i + 1) * 512) := by
        rw [List.length_cons, Nat.succ_mul, Nat.add_comm]
      rw [List.foldl_cons, reclaim, ih, List.foldl_cons, hlength,
        UInt64.ofNat_add, UInt64.add_assoc]

theorem collectSlabs_eq (h : memory.live pool = some slabs) (bytes : UInt64)
    {rounds : List (Fin SLAB_DEPTH)} (hnodup : rounds.Nodup) :
    rounds.foldlM (collectSlab pool) (memory, bytes) = .ok ({ memory with
      live := Function.update memory.live pool
        (some fun i => if i ∈ rounds then [] else slabs i)
      freed := fun b => memory.freed b + listedIn slabs rounds b },
      bytes + UInt64.ofNat (slabBytes slabs rounds)) := by
  induction rounds generalizing memory bytes slabs with
  | nil =>
      have hsame : Function.update memory.live pool (some slabs) =
          memory.live := by rw [← h, Function.update_eq_self]
      simp [listedIn, slabBytes, hsame]
      rfl
  | cons i rounds ih =>
      obtain ⟨hi, hrest⟩ := List.nodup_cons.mp hnodup
      let slabs' := Function.update slabs i []
      have hround : collectSlab pool (memory, bytes) i = .ok ({ memory with
          live := Function.update memory.live pool (some slabs')
          freed := fun b => memory.freed b + (slabs i).count b },
          bytes + UInt64.ofNat ((slabs i).length * ((i + 1) * 512))) := by
        simp only [collectSlab]
        rw [slabs_eq h, Code.ok_bind, reclaimAll_eq, freeAll_eq,
          setSlab_eq (by exact h)]
        rfl
      have hsame : ∀ j ∈ rounds, slabs' j = slabs j := by
        intro j hj
        have hne : j ≠ i := fun e => hi (e ▸ hj)
        exact Function.update_of_ne hne _ _
      have hlists : (fun j => if j ∈ rounds then [] else slabs' j) =
          fun j => if j ∈ i :: rounds then [] else slabs j := by
        funext j
        by_cases hj : j = i
        · subst hj
          simp [slabs']
        · simp [slabs', hj]
      have hlisted : listedIn slabs' rounds = listedIn slabs rounds := by
        funext b
        exact congrArg List.sum (List.map_congr_left fun j hj => by
          rw [hsame j hj])
      have hbytes : slabBytes slabs' rounds = slabBytes slabs rounds :=
        congrArg List.sum (List.map_congr_left fun j hj => by rw [hsame j hj])
      rw [List.foldlM_cons, hround, Code.ok_bind,
        ih (Function.update_self ..) _ hrest, Function.update_idem, hlists,
        hlisted, hbytes, UInt64.add_assoc, ← UInt64.ofNat_add]
      simp only [Nat.add_assoc]
      rfl

theorem collect_eq (h : memory.live pool = some slabs) :
    collect memory pool = .ok ({ memory with
      live := Function.update memory.live pool (some fun _ => [])
      freed := fun b => memory.freed b + listed slabs b },
      UInt64.ofNat (slabBytes slabs (List.finRange SLAB_DEPTH))) := by
  rw [collect, collectSlabs_eq h 0 (List.nodup_finRange SLAB_DEPTH),
    listedIn_finRange, UInt64.zero_add]
  simp only [List.mem_finRange, if_true]

end Iocore.Thread
