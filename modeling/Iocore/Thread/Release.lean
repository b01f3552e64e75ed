import Iocore.Thread.Model

/-!
# Release of the slab pools

Both `pool_` and `ctx_pool_` point to the array while `ThreadMain` runs.
Whoever gives it up clears `ctx_pool_`: `Cleanup` when the thread gets that
far, and `Destroy` when it was cancelled before.  So the array is deleted once,
and each buffer is at any time freed, in a list, or not the pool's.
-/

namespace Iocore.Thread

open Foundation Foundation.System Memory

variable {B : Type}

structure Fresh (ctxPool pool : Option Nat) (tinst : Bool)
    (memory : Memory B) : Prop where
  ctxPool : ctxPool = none
  pool : pool = none
  tinst : tinst = false
  memory : memory = .fresh

structure Holds (ctxPool : Option Nat) (memory : Memory B) (slabs : Slabs B) :
    Prop where
  ctxPool : ctxPool = some 0
  live : memory.live 0 = some slabs
  allocated : memory.allocated = 1
  deleted : memory.deleted = fun _ => 0

structure Released (ctxPool : Option Nat) (memory : Memory B) : Prop where
  ctxPool : ctxPool = none
  live : memory.live 0 = none
  allocated : memory.allocated = 1
  deleted : memory.deleted = Function.update (fun _ => 0) 0 1

structure Running (ctxPool pool : Option Nat) (tinst : Bool)
    (memory : Memory B) : Prop where
  pool : pool = some 0
  tinst : tinst = true
  holds : ∃ slabs, Holds ctxPool memory slabs

def Ownership (s : State B) : Prop :=
  match s.pc with
  | .notCreated | .disableForInit => Fresh s.ctxPool s.pool s.tinst s.memory
  | .init =>
      Fresh s.ctxPool s.pool s.tinst s.memory ∧ s.cancelEnabled = false
  | .enableForMain | .threadMain | .gcKicked _ | .gcReclaimed
  | .disableForCleanup | .cleanup =>
      Running s.ctxPool s.pool s.tinst s.memory
  | .enableForReturn | .returned => Released s.ctxPool s.memory
  | .cancelled =>
      (s.object ≠ .destructed ∧ ∃ slabs, Holds s.ctxPool s.memory slabs) ∨
        Released s.ctxPool s.memory

/-- How far the thread may be, at each stage of the object's life. -/
def Lifetime.Allows (object : Lifetime) (pc : Pc) : Prop :=
  match object with
  | .constructed => pc = .notCreated
  | .started => True
  | .joined | .destructed => pc.ended = true

variable [DecidableEq B]

def State.balance (s : State B) (buffer : B) : Nat :=
  s.memory.freed buffer + s.memory.held 0 buffer

structure Invariant (s : State B) : Prop where
  ownership : Ownership s
  lifetime : s.object.Allows s.pc
  balance : ∀ b, s.balance b ≤ 1

def Action.settle (buffer : B) (balance : Nat) : Action B → Nat
  | .add _ b => if buffer = b then 1 else balance
  | .take _ b => if buffer = b then 0 else balance
  | _ => balance

theorem Action.settle_le {buffer : B} {balance : Nat} {a : Action B}
    (h : balance ≤ 1) : a.settle buffer balance ≤ 1 := by
  cases a with
  | add i b => by_cases hb : buffer = b <;> simp [Action.settle, hb, h]
  | take i b => by_cases hb : buffer = b <;> simp [Action.settle, hb, h]
  | _ => exact h

theorem added_cons (tr : History (State B) (Action B)) (s : State B)
    (a : Action B) (buffer : B) :
    (added ((s, a) :: tr) buffer).toNat =
      a.settle buffer (added tr buffer).toNat := by
  cases a with
  | add i b => by_cases hb : buffer = b <;> simp [added, Action.settle, hb]
  | take i b => by_cases hb : buffer = b <;> simp [added, Action.settle, hb]
  | _ => rfl

structure Change (s : State B) (a : Action B) (s' : State B) : Prop where
  ownership : Ownership s'
  lifetime : s'.object.Allows s'.pc
  balance : ∀ b, s'.balance b = a.settle b (s.balance b)
  allocated : s'.memory.allocated =
    s.memory.allocated + if s.pc = .init ∧ a = .next then 1 else 0

theorem Change.invariant {s s' : State B} {a : Action B} (inv : Invariant s)
    (change : Change s a s') : Invariant s' where
  ownership := change.ownership
  lifetime := change.lifetime
  balance b := by
    rw [change.balance b]
    exact Action.settle_le (inv.balance b)

theorem Change.quiet {s s' : State B} {a : Action B} (own : Ownership s')
    (life : s'.object.Allows s'.pc) (memory : s'.memory = s.memory)
    (quiet : ∀ b n, a.settle b n = n) (later : ¬ (s.pc = .init ∧ a = .next)) :
    Change s a s' where
  ownership := own
  lifetime := life
  balance b := by rw [quiet, State.balance, State.balance, memory]
  allocated := by rw [memory, if_neg later, Nat.add_zero]

/-! ## The operations on the array -/

variable {ctxPool : Option Nat} {memory : Memory B} {slabs : Slabs B}

theorem Holds.held (h : Holds ctxPool memory slabs) (b : B) :
    memory.held 0 b = listed slabs b :=
  held_eq h.live

omit [DecidableEq B] in
theorem Holds.withSlabs (h : Holds ctxPool memory slabs) (slabs' : Slabs B)
    (freed : B → Nat) :
    Holds ctxPool { memory with
      live := Function.update memory.live 0 (some slabs'), freed := freed }
      slabs' where
  ctxPool := h.ctxPool
  live := by simp
  allocated := h.allocated
  deleted := h.deleted

theorem Holds.cleanupPool (h : Holds ctxPool memory slabs) :
    ∃ memory', cleanupPool memory (some 0) = .ok memory' ∧
      Released none memory' ∧
      ∀ b, memory'.freed b + memory'.held 0 b =
        memory.freed b + memory.held 0 b := by
  refine ⟨_, cleanupPool_eq h.live, ?_, ?_⟩
  · exact ⟨rfl, by simp, h.allocated, by simp [h.deleted]⟩
  · intro b
    simp [Memory.held, h.live]

theorem Holds.collect (h : Holds ctxPool memory slabs) :
    ∃ memory' bytes, collect memory 0 = .ok (memory', bytes) ∧
      Holds ctxPool memory' (fun _ => []) ∧
      ∀ b, memory'.freed b + memory'.held 0 b =
        memory.freed b + memory.held 0 b := by
  refine ⟨_, _, collect_eq h.live, h.withSlabs .., ?_⟩
  intro b
  simp [Memory.held, h.live, listed_eq_zero]

omit [DecidableEq B] in
theorem Holds.setSlab (h : Holds ctxPool memory slabs) (i : Fin SLAB_DEPTH)
    (slab : List B) :
    ∃ memory', memory.setSlab 0 i slab = .ok memory' ∧
      memory'.freed = memory.freed ∧
      Holds ctxPool memory' (Function.update slabs i slab) :=
  ⟨_, setSlab_eq h.live i slab, rfl, h.withSlabs ..⟩

/-! ## What each action does -/

variable {s : State B}

theorem Invariant.allows (inv : Invariant s) (created : s.pc ≠ .notCreated)
    (alive : s.pc.ended = false) (pc : Pc) : s.object.Allows pc := by
  have life := inv.lifetime
  cases hobject : s.object with
  | constructed =>
      rw [hobject] at life
      exact absurd life created
  | started => trivial
  | joined | destructed =>
      rw [hobject, Lifetime.Allows, alive] at life
      contradiction

theorem Pc.alive_of_inThreadMain {pc : Pc} (h : pc.inThreadMain = true) :
    pc ≠ .notCreated ∧ pc.ended = false := by
  cases pc with
  | threadMain | gcKicked | gcReclaimed => exact ⟨nofun, rfl⟩
  | _ => cases h

theorem init_safe (inv : Invariant s) (hpc : s.pc = .init) :
    (init s).Safe (Change s .next) := by
  have own := inv.ownership
  simp only [Ownership, hpc] at own
  obtain ⟨⟨-, hpool, htinst, hmemory⟩, -⟩ := own
  obtain ⟨memory', hnew, hholds, hbalance⟩ : ∃ memory',
      s.memory.newPool = (0, memory') ∧
      Holds (some 0) memory' (fun _ => []) ∧
      ∀ b, memory'.freed b + memory'.held 0 b =
        s.memory.freed b + s.memory.held 0 b := by
    rw [hmemory]
    refine ⟨_, rfl, ⟨rfl, by simp [fresh], rfl, rfl⟩, fun b => ?_⟩
    simp [Memory.held, fresh, listed_eq_zero]
  refine Code.safe_of_eq (by
    rw [init, hpool, htinst, hnew]
    rfl) ?_
  refine ⟨⟨rfl, rfl, _, hholds⟩, ?_, hbalance, ?_⟩
  · exact inv.allows (by simp [hpc]) (by simp [hpc, Pc.ended]) _
  · rw [if_pos ⟨hpc, rfl⟩, hmemory]
    exact hholds.allocated

theorem Invariant.running (inv : Invariant s)
    (h : s.pc.inThreadMain = true ∨ s.pc = .cleanup) :
    Running s.ctxPool s.pool s.tinst s.memory := by
  have own := inv.ownership
  unfold Ownership at own
  cases hpc : s.pc with
  | threadMain | gcKicked | gcReclaimed | cleanup =>
      rw [hpc] at own
      exact own
  | _ =>
      rw [hpc] at h
      rcases h with h | h <;> cases h

omit [DecidableEq B] in
theorem ownership_of_running (h : s.pc.inThreadMain = true)
    (run : Running s.ctxPool s.pool s.tinst s.memory) : Ownership s := by
  unfold Ownership
  cases hpc : s.pc with
  | threadMain | gcKicked | gcReclaimed => exact run
  | _ =>
      rw [hpc] at h
      cases h

theorem Change.inThreadMain {s' : State B} {a : Action B} (inv : Invariant s)
    (before : s.pc.inThreadMain = true) (after : s'.pc.inThreadMain = true)
    (object : s'.object = s.object) (pool : s'.pool = s.pool)
    (tinst : s'.tinst = s.tinst) {slabs' : Slabs B}
    (holds : Holds s'.ctxPool s'.memory slabs')
    (balance : ∀ b, s'.balance b = a.settle b (s.balance b)) :
    Change s a s' where
  ownership := by
    have run := inv.running (.inl before)
    exact ownership_of_running after
      ⟨pool.trans run.pool, tinst.trans run.tinst, slabs', holds⟩
  lifetime := by
    rw [object]
    have alive := Pc.alive_of_inThreadMain before
    exact inv.allows alive.1 alive.2 _
  balance := balance
  allocated := by
    obtain ⟨slabs, hholds⟩ := (inv.running (.inl before)).holds
    have hinit : ¬ (s.pc = .init ∧ a = .next) := by
      rintro ⟨h, -⟩
      rw [h] at before
      cases before
    rw [holds.allocated, hholds.allocated, if_neg hinit]

theorem add_safe (inv : Invariant s) (hpc : s.pc = .threadMain)
    (i : Fin SLAB_DEPTH) (buffer : B) :
    (add s i buffer).Safe (Change s (.add i buffer)) := by
  have hmain : s.pc.inThreadMain = true := by rw [hpc]; rfl
  have run := inv.running (.inl hmain)
  obtain ⟨slabs, hholds⟩ := run.holds
  unfold add
  rw [run.pool, deref_some, Code.ok_bind, slabs_eq hholds.live, Code.ok_bind]
  split
  case isFalse => rfl
  case isTrue hnew =>
    obtain ⟨hfreed, hout⟩ := hnew
    obtain ⟨memory', hset, hkept, hholds'⟩ :=
      hholds.setSlab i (buffer :: slabs i)
    refine Code.safe_of_eq (by rw [hset]; rfl) ?_
    refine .inThreadMain inv hmain hmain rfl run.pool.symm rfl hholds'
      fun b => ?_
    have hlisted := listed_update slabs i (buffer :: slabs i) b
    simp only [State.balance, hkept, hholds.held, hholds'.held, Action.settle]
    by_cases hb : b = buffer
    · subst hb
      rw [List.count_cons_self] at hlisted
      rw [if_pos rfl, hfreed]
      have hzero := listed_eq_zero hout
      omega
    · rw [List.count_cons_of_ne (Ne.symm hb)] at hlisted
      rw [if_neg hb]
      omega

theorem take_safe (inv : Invariant s) (hpc : s.pc = .threadMain)
    (i : Fin SLAB_DEPTH) (buffer : B) :
    (take s i buffer).Safe (Change s (.take i buffer)) := by
  have hmain : s.pc.inThreadMain = true := by rw [hpc]; rfl
  have run := inv.running (.inl hmain)
  obtain ⟨slabs, hholds⟩ := run.holds
  unfold take
  rw [run.pool, deref_some, Code.ok_bind, slabs_eq hholds.live, Code.ok_bind]
  split
  case isFalse => rfl
  case isTrue hin =>
    obtain ⟨memory', hset, hkept, hholds'⟩ :=
      hholds.setSlab i ((slabs i).erase buffer)
    refine Code.safe_of_eq (by rw [hset]; rfl) ?_
    refine .inThreadMain inv hmain hmain rfl run.pool.symm rfl hholds'
      fun b => ?_
    have hlisted := listed_update slabs i ((slabs i).erase buffer) b
    have hbefore := inv.balance b
    simp only [State.balance, hholds.held] at hbefore
    simp only [State.balance, hkept, hholds.held, hholds'.held, Action.settle]
    by_cases hb : b = buffer
    · subst hb
      have hpos : 0 < (slabs i).count b := List.count_pos_iff.mpr hin
      have hone : 0 < listed slabs b := listed_pos hin
      rw [List.count_erase_self] at hlisted
      rw [if_pos rfl]
      omega
    · rw [List.count_erase_of_ne hb] at hlisted
      rw [if_neg hb]
      omega

theorem garbageCollect_safe (inv : Invariant s) (hpc : s.pc = .threadMain)
    (first now : UInt64) :
    (garbageCollect s first now).Safe
      (Change s (.garbageCollect first now)) := by
  have hmain : s.pc.inThreadMain = true := by rw [hpc]; rfl
  have run := inv.running (.inl hmain)
  obtain ⟨slabs, hholds⟩ := run.holds
  refine Code.safe_of_eq (by
    rw [garbageCollect, run.tinst, run.pool]
    rfl) ?_
  refine .inThreadMain inv hmain ?_ rfl run.pool.symm run.tinst.symm hholds
    fun _ => rfl
  dsimp only
  split
  · rfl
  · exact hmain

theorem gcSweep_safe (inv : Invariant s) {now : UInt64}
    (hpc : s.pc = .gcKicked now) :
    (gcSweep s now).Safe (Change s .next) := by
  have hmain : s.pc.inThreadMain = true := by rw [hpc]; rfl
  have run := inv.running (.inl hmain)
  obtain ⟨slabs, hholds⟩ := run.holds
  obtain ⟨memory', bytes, hcollect, hholds', hbalance⟩ := hholds.collect
  refine Code.safe_of_eq (by
    simp only [gcSweep, run.pool, deref_some, hcollect, Code.ok_bind,
      PerfCounter.update_eq]
    rfl) ?_
  exact .inThreadMain inv hmain rfl rfl run.pool.symm rfl hholds' hbalance

theorem cleanup_safe (inv : Invariant s) (hpc : s.pc = .cleanup) :
    (cleanup s).Safe (Change s .next) := by
  have run := inv.running (.inr hpc)
  obtain ⟨slabs, hholds⟩ := run.holds
  obtain ⟨memory', hcleanup, hreleased, hbalance⟩ := hholds.cleanupPool
  refine Code.safe_of_eq (by
    rw [cleanup, run.pool, run.tinst, hcleanup]
    rfl) ?_
  refine ⟨hreleased, ?_, hbalance, ?_⟩
  · exact inv.allows (by simp [hpc]) (by simp [hpc, Pc.ended]) _
  · have hinit : ¬ (s.pc = .init ∧ Action.next (B := B) = .next) := by
      simp [hpc]
    rw [if_neg hinit, hholds.allocated]
    exact hreleased.allocated

theorem Invariant.of_ended (inv : Invariant s) (ended : s.pc.ended = true) :
    Released s.ctxPool s.memory ∨ s.pc = .cancelled ∧
      s.object ≠ .destructed ∧ ∃ slabs, Holds s.ctxPool s.memory slabs := by
  have own := inv.ownership
  have hpc : s.pc = .returned ∨ s.pc = .cancelled := by
    simpa [Pc.ended] using ended
  rcases hpc with hpc | hpc
  · simp only [Ownership, hpc] at own
    exact .inl own
  · simp only [Ownership, hpc] at own
    exact own.symm.imp_right fun h => ⟨hpc, h⟩

omit [DecidableEq B] in
theorem ownership_of_released (ended : s.pc.ended = true)
    (released : Released s.ctxPool s.memory) : Ownership s := by
  have hpc : s.pc = .returned ∨ s.pc = .cancelled := by
    simpa [Pc.ended] using ended
  rcases hpc with hpc | hpc
  · simp only [Ownership, hpc]
    exact released
  · simp only [Ownership, hpc]
    exact .inr released

theorem Invariant.ended (inv : Invariant s) (joined : s.object = .joined) :
    s.pc.ended = true := by
  have life := inv.lifetime
  rwa [joined] at life

theorem destroy_ok (inv : Invariant s) (joined : s.object = .joined) :
    ∃ ctxPool memory', destroy s =
        .ok { s with ctxPool := ctxPool, memory := memory' } ∧
      Released ctxPool memory' ∧
      ∀ b, memory'.freed b + memory'.held 0 b = s.balance b := by
  rcases inv.of_ended (inv.ended joined) with
    hreleased | ⟨-, -, slabs, hholds⟩
  · refine ⟨s.ctxPool, s.memory, ?_, hreleased, fun _ => rfl⟩
    unfold destroy
    split
    case h_1 => rfl
    case h_2 pool hpool =>
      rw [hreleased.ctxPool] at hpool
      cases hpool
  · obtain ⟨memory', hcleanup, hreleased, hbalance⟩ := hholds.cleanupPool
    refine ⟨none, memory', ?_, hreleased, hbalance⟩
    simp only [destroy, hholds.ctxPool, hcleanup, Code.ok_bind]
    rfl

/-- Once the object is joined, every step leads to a released array. -/
theorem Change.released {s' : State B} {a : Action B} (inv : Invariant s)
    (joined : s.object = .joined) (pc : s'.pc = s.pc)
    (object : s'.object = .joined ∨ s'.object = .destructed)
    (released : Released s'.ctxPool s'.memory)
    (balance : ∀ b, s'.balance b = a.settle b (s.balance b)) :
    Change s a s' where
  ownership := ownership_of_released (pc ▸ inv.ended joined) released
  lifetime := by
    have ended := inv.ended joined
    rcases object with h | h
    · rw [h, pc]
      exact ended
    · rw [h, pc]
      exact ended
  balance := balance
  allocated := by
    have hinit : ¬ (s.pc = .init ∧ a = .next) := by
      rintro ⟨h, -⟩
      have ended := inv.ended joined
      rw [h] at ended
      cases ended
    rw [if_neg hinit, released.allocated]
    rcases inv.of_ended (inv.ended joined) with h | ⟨-, -, slabs, h⟩
    · exact h.allocated.symm
    · exact h.allocated.symm

theorem destroy_safe (inv : Invariant s) (joined : s.object = .joined) :
    (destroy s).Safe (Change s .destroy) := by
  obtain ⟨ctxPool, memory', hdestroy, hreleased, hbalance⟩ :=
    destroy_ok inv joined
  exact Code.safe_of_eq hdestroy
    (.released inv joined rfl (.inl joined) hreleased hbalance)

theorem destruct_ok (inv : Invariant s) (joined : s.object = .joined) :
    ∃ s', destruct s = .ok s' ∧ Change s .destruct s' := by
  obtain ⟨ctxPool, memory', hdestroy, hreleased, hbalance⟩ :=
    destroy_ok inv joined
  refine ⟨_, by rw [destruct, hdestroy]; rfl, ?_⟩
  exact .released inv joined rfl (.inr rfl) hreleased hbalance

omit [DecidableEq B] in
theorem provided_safe {enabled : Bool} {code : Code (State B)}
    {P : State B → Prop} (h : enabled = true → code.Safe P) :
    (provided enabled code).Safe P := by
  unfold provided
  split
  case isTrue henabled => exact h henabled
  case isFalse => rfl

theorem Change.control {s' : State B} {a : Action B} (inv : Invariant s)
    (created : s.pc ≠ .notCreated) (alive : s.pc.ended = false)
    (own : Ownership s') (object : s'.object = s.object)
    (memory : s'.memory = s.memory) (quiet : ∀ b n, a.settle b n = n)
    (later : ¬ (s.pc = .init ∧ a = .next)) : Change s a s' :=
  .quiet own (object ▸ inv.allows created alive _) memory quiet later

theorem advance_safe (inv : Invariant s) :
    (advance s).Safe (Change s .next) := by
  have own := inv.ownership
  unfold Ownership at own
  have control (s' : State B) (own : Ownership s')
      (hpc : s.pc ≠ .notCreated ∧ s.pc.ended = false ∧ s.pc ≠ .init)
      (object : s'.object = s.object) (memory : s'.memory = s.memory) :
      Change s .next s' :=
    .control inv hpc.1 hpc.2.1 own object memory (fun _ _ => rfl)
      fun h => hpc.2.2 h.1
  unfold advance
  cases hpc : s.pc with
  | init => exact init_safe inv hpc
  | gcKicked now => exact gcSweep_safe inv hpc
  | cleanup => exact cleanup_safe inv hpc
  | notCreated | threadMain | returned | cancelled => rfl
  | disableForInit =>
      rw [hpc] at own
      exact control { s with cancelEnabled := false, pc := .init } ⟨own, rfl⟩
        (by simp [hpc, Pc.ended]) rfl rfl
  | enableForMain =>
      rw [hpc] at own
      exact control { s with cancelEnabled := true, pc := .threadMain } own
        (by simp [hpc, Pc.ended]) rfl rfl
  | gcReclaimed =>
      rw [hpc] at own
      exact control { s with pc := .threadMain } own
        (by simp [hpc, Pc.ended]) rfl rfl
  | disableForCleanup =>
      rw [hpc] at own
      exact control { s with cancelEnabled := false, pc := .cleanup } own
        (by simp [hpc, Pc.ended]) rfl rfl
  | enableForReturn =>
      rw [hpc] at own
      exact control { s with cancelEnabled := true, pc := .returned } own
        (by simp [hpc, Pc.ended]) rfl rfl

theorem actOnCancel_change (inv : Invariant s) (enabled : s.cancelEnabled = true)
    (point : s.pc.cancellationPoint = true) :
    Change s .actOnCancel { s with pc := .cancelled } := by
  have own := inv.ownership
  have hinit : s.pc ≠ .init := by
    intro h
    simp only [Ownership, h, enabled] at own
    cases own.2
  have hwhere : s.pc.inThreadMain = true ∨ s.pc = .cleanup := by
    simp only [Pc.cancellationPoint, Bool.or_eq_true, decide_eq_true_eq]
      at point
    exact point.imp_left fun h => h.resolve_right hinit
  have run := inv.running hwhere
  have alive : s.pc ≠ .notCreated ∧ s.pc.ended = false := by
    rcases hwhere with hmain | hpc
    · exact Pc.alive_of_inThreadMain hmain
    · rw [hpc]
      exact ⟨nofun, rfl⟩
  have hobject : s.object ≠ .destructed := by
    intro h
    have life := inv.lifetime
    rw [h, Lifetime.Allows, alive.2] at life
    cases life
  exact .control inv alive.1 alive.2 (.inl ⟨hobject, run.holds⟩) rfl rfl
    (fun _ _ => rfl) nofun

theorem join_change (inv : Invariant s) (ended : s.pc.ended = true) :
    Change s .join { s with object := .joined } := by
  refine .quiet ?_ ended rfl (fun _ _ => rfl) nofun
  rcases inv.of_ended ended with hreleased | ⟨hpc, -, hholds⟩
  · exact ownership_of_released ended hreleased
  · simp only [Ownership, hpc]
    exact .inl ⟨nofun, hholds⟩

theorem exec_safe (inv : Invariant s) (a : Action B) :
    (exec s a).Safe (Change s a) := by
  have main {s' : State B} {a : Action B} (hpc : s.pc = .threadMain)
      (own : Ownership s') (object : s'.object = s.object)
      (memory : s'.memory = s.memory) (quiet : ∀ b n, a.settle b n = n) :
      Change s a s' :=
    .control inv (by simp [hpc]) (by simp [hpc, Pc.ended]) own object memory
      quiet (by simp [hpc])
  cases a with
  | start =>
      refine provided_safe fun h => ?_
      have life := inv.lifetime
      have own := inv.ownership
      rw [of_decide_eq_true h] at life
      simp only [Ownership, show s.pc = .notCreated from life] at own
      exact .quiet own trivial rfl (fun _ _ => rfl) nofun
  | next => exact advance_safe inv
  | add i buffer =>
      exact provided_safe fun h => add_safe inv (of_decide_eq_true h) i buffer
  | take i buffer =>
      exact provided_safe fun h => take_safe inv (of_decide_eq_true h) i buffer
  | setCancelState enabled =>
      refine provided_safe fun h => ?_
      have hpc := of_decide_eq_true h
      have hmain : s.pc.inThreadMain = true := by rw [hpc]; rfl
      exact main hpc (ownership_of_running hmain (inv.running (.inl hmain)))
        rfl rfl fun _ _ => rfl
  | garbageCollect first now =>
      exact provided_safe fun h =>
        garbageCollect_safe inv (of_decide_eq_true h) first now
  | returnMain =>
      refine provided_safe fun h => ?_
      have hpc := of_decide_eq_true h
      exact main hpc (inv.running (.inl (by rw [hpc]; rfl))) rfl rfl
        fun _ _ => rfl
  | cancel =>
      refine provided_safe fun h => ?_
      exact .quiet inv.ownership inv.lifetime rfl (fun _ _ => rfl) nofun
  | actOnCancel =>
      refine provided_safe fun h => ?_
      simp only [Bool.and_eq_true] at h
      exact actOnCancel_change inv h.1.2 h.2
  | join =>
      refine provided_safe fun h => ?_
      simp only [Bool.and_eq_true] at h
      exact join_change inv h.2
  | destroy =>
      exact provided_safe fun h => destroy_safe inv (of_decide_eq_true h)
  | destruct =>
      refine provided_safe fun h => ?_
      obtain ⟨s', hdestruct, change⟩ := destruct_ok inv (of_decide_eq_true h)
      exact Code.safe_of_eq hdestruct change

theorem invariant_inductive : (system B).Inductive Invariant where
  init := by
    rintro s rfl
    refine ⟨⟨rfl, rfl, rfl, rfl⟩, rfl, fun b => ?_⟩
    simp [State.balance, initial, fresh, Memory.held]
  step {s a s'} inv hstep := by
    have change : Change s a s' := (exec_safe inv a).of_ok hstep
    exact change.invariant inv

/-! ## What a run comes to -/

variable {tr : History (State B) (Action B)}

theorem change_of_step {s' : State B} {a : Action B}
    (run : (system B).Exec tr s) (hstep : (system B).step s a s') :
    Change s a s' :=
  (exec_safe (invariant_inductive.exec run) a).of_ok hstep

theorem balance_eq_added (run : (system B).Exec tr s) :
    ∀ b, s.balance b = (added tr b).toNat := by
  refine run.historyInvariant
    (fun tr s => ∀ b, s.balance b = (added tr b).toNat) ?_ ?_
  · rintro s rfl b
    simp [State.balance, initial, fresh, Memory.held, added]
  · intro tr s a s' run hbefore hstep b
    rw [(change_of_step run hstep).balance, hbefore, added_cons]

theorem initialised_eq_range (run : (system B).Exec tr s) :
    initialised tr = (List.range s.memory.allocated).reverse := by
  refine run.historyInvariant
    (fun tr s => initialised tr = (List.range s.memory.allocated).reverse) ?_ ?_
  · rintro s rfl
    rfl
  · intro tr s a s' run hbefore hstep
    rw [(change_of_step run hstep).allocated, initialised, observed_cons]
    change _ ++ initialised tr = _
    rw [hbefore]
    by_cases hinit : s.pc = .init ∧ a = .next
    · obtain ⟨hpc, rfl⟩ := hinit
      simp [hpc, List.range_succ, newPool]
    · rw [if_neg hinit, Nat.add_zero]
      cases hpc : s.pc <;> cases a <;> simp_all

omit [DecidableEq B] in
theorem Ownership.cases (own : Ownership s) :
    Fresh s.ctxPool s.pool s.tinst s.memory ∨
      (∃ slabs, Holds s.ctxPool s.memory slabs) ∨
        Released s.ctxPool s.memory := by
  unfold Ownership at own
  split at own
  case h_1 | h_2 => exact .inl own
  case h_3 => exact .inl own.1
  case h_4 | h_5 | h_6 | h_7 | h_8 | h_9 => exact .inr (.inl own.holds)
  case h_10 | h_11 => exact .inr (.inr own)
  case h_12 => exact .inr (own.imp_left And.right)

theorem Released.deleted_eq (released : Released s.ctxPool s.memory)
    (run : (system B).Exec tr s) (pool : Nat) :
    s.memory.deleted pool = (initialised tr).count pool := by
  rw [initialised_eq_range run, released.allocated, released.deleted]
  by_cases hpool : pool = 0
  · simp [hpool]
  · have hne : ¬ 0 = pool := fun e => hpool e.symm
    simp [hpool, hne]

/--
What is promised of the slab pools of a thread object, in a state reached with
history `tr`.
-/
structure ReleasedOnce (tr : History (State B) (Action B)) (s : State B) :
    Prop where
  /-- Nothing aborts, dereferences `NULL` or accesses a deleted array. -/
  noFault : ∀ a stop, exec s a = .error stop → stop = .blocked
  samePool : s.pc.inThreadMain = true → s.ctxPool = s.pool ∧ s.pool ≠ none
  initOnce : (initialised tr).length ≤ 1
  deletedOnce : ∀ pool, s.memory.deleted pool ≤ (initialised tr).count pool
  freedOnce : ∀ b, s.memory.freed b ≤ 1
  destructible : s.object = .joined → ∃ s', exec s .destruct = .ok s'
  deleted : s.object = .destructed →
    ∀ pool, s.memory.deleted pool = (initialised tr).count pool
  freed : s.object = .destructed →
    ∀ b, s.memory.freed b = if added tr b then 1 else 0

theorem pools_released_once (run : (system B).Exec tr s) :
    ReleasedOnce tr s := by
  have inv : Invariant s := invariant_inductive.exec run
  have hfreed : ∀ b, s.memory.freed b ≤ s.balance b := fun b =>
    Nat.le_add_right _ _
  have hdestructed (h : s.object = .destructed) :
      Released s.ctxPool s.memory := by
    have ended := inv.lifetime
    rw [h] at ended
    exact (inv.of_ended ended).resolve_right fun hheld => hheld.2.1 h
  constructor
  case noFault =>
    exact fun a stop h => (exec_safe inv a).of_error h
  case samePool =>
    intro hmain
    obtain ⟨hpool, -, slabs, hholds⟩ := inv.running (.inl hmain)
    rw [hpool, hholds.ctxPool]
    exact ⟨rfl, nofun⟩
  case initOnce =>
    rw [initialised_eq_range run, List.length_reverse, List.length_range]
    rcases inv.ownership.cases with h | ⟨slabs, h⟩ | h
    · rw [h.memory]
      exact Nat.zero_le 1
    · exact h.allocated.le
    · exact h.allocated.le
  case deletedOnce =>
    intro pool
    rcases inv.ownership.cases with h | ⟨slabs, h⟩ | h
    · rw [h.memory]
      exact Nat.zero_le _
    · rw [h.deleted]
      exact Nat.zero_le _
    · exact (h.deleted_eq run pool).le
  case freedOnce => exact fun b => (hfreed b).trans (inv.balance b)
  case destructible =>
    intro joined
    obtain ⟨s', hdestruct, -⟩ := destruct_ok inv joined
    exact ⟨s', by simp [exec, provided, joined, hdestruct]⟩
  case deleted => exact fun h => (hdestructed h).deleted_eq run
  case freed =>
    intro h b
    have hbalance := balance_eq_added run b
    rw [State.balance, Memory.held, (hdestructed h).live] at hbalance
    cases hadded : added tr b <;> simpa [hadded] using hbalance

theorem cancelled_pools_released_once :
    ∃ tr s, (system (Fin 3)).Exec tr s ∧
      s.object = .destructed ∧ s.pc = .cancelled ∧ initialised tr = [0] ∧
      [0, 1, 2].map s.memory.freed = [1, 0, 1] ∧ ReleasedOnce tr s := by
  obtain ⟨tr, s, run, htest⟩ : ∃ tr s, (system (Fin 3)).Exec tr s ∧
      decide (s.object = .destructed ∧ s.pc = .cancelled ∧
        initialised tr = [0] ∧ [0, 1, 2].map s.memory.freed = [1, 0, 1]) =
        true :=
    Exec.ofRecord exec (initial (Fin 3))
      [.start, .cancel, .next, .next, .next, .setCancelState false,
        .add 0 0, .add 1 1, .take 1 1, .garbageCollect 0 1001, .next, .next,
        .add 3 2, .setCancelState true, .actOnCancel, .join, .destroy,
        .destroy, .destruct]
      (fun r => decide (r.2.object = .destructed ∧ r.2.pc = .cancelled ∧
        initialised r.1 = [0] ∧ [0, 1, 2].map r.2.memory.freed = [1, 0, 1]))
      rfl (by decide)
  obtain ⟨hobject, hpc, hinit, hfreed⟩ := of_decide_eq_true htest
  exact ⟨tr, s, run, hobject, hpc, hinit, hfreed, pools_released_once run⟩

end Iocore.Thread
