import Iocore.Thread.Release

/-!
# What garbage collection accounts for

The calls that `ThreadMain` makes are put together here from the steps of the
thread, with nothing in between: a call of `GarbageCollect` runs to its end.
The loop counts the bytes it frees in a `size_t`, and `Update` takes them in 32
bits.  So the counter agrees with what was freed as long as no single
collection comes to 4 GiB.
-/

namespace Iocore.Thread

open Foundation Foundation.System Memory

namespace Collection

inductive Call (B : Type) where
  | add (i : Fin SLAB_DEPTH) (buffer : B)
  | garbageCollect (first now : UInt64)
  deriving DecidableEq, Repr

variable {B : Type}

def pools (s : State B) : Slabs B :=
  (s.pool.bind s.memory.live).getD fun _ => []

def slabSize (i : Fin SLAB_DEPTH) : ℕ := (i + 1) * 512

def poolBytes (s : State B) : ℕ := ∑ i, (pools s i).length * slabSize i

def freedBytes (s s' : State B) : ℕ :=
  ∑ i, (pools s i).countP (fun b => s.memory.freed b < s'.memory.freed b) *
    slabSize i

def kicks (s : State B) (first now : UInt64) : Prop :=
  elapsed now (s.lastInMilliSec.getD first) > GC_TIMEOUT_MS

instance (s : State B) (first now : UInt64) : Decidable (kicks s first now) :=
  inferInstanceAs (Decidable (_ > _))

variable [DecidableEq B]

def begin (B : Type) [DecidableEq B] : State B :=
  { initial B with
    object := .started
    ctxPool := some 0
    pc := .threadMain
    tinst := true
    pool := some 0
    memory := fresh.newPool.2 }

def store (s : State B) (slabs : Slabs B) : State B :=
  { s with memory := { s.memory with
      live := Function.update s.memory.live 0 (some slabs) } }

def runGarbageCollect (s : State B) (first now : UInt64) :
    Code (State B) := do
  let s ← exec s (.garbageCollect first now)
  match s.pc with
  | .gcKicked _ => do
      let s ← advance s
      advance s
  | _ => return s

def call (s : State B) : Call B → Code (State B)
  | .add i buffer => exec s (.add i buffer)
  | .garbageCollect first now => runGarbageCollect s first now

structure Account (B : Type) where
  thread : State B
  reclaimed : ℕ

def perform (s : Account B) (c : Call B) : Code (Account B) := do
  let thread ← call s.thread c
  return ⟨thread, s.reclaimed + freedBytes s.thread thread⟩

def system (B : Type) [DecidableEq B] : System (Account B) (Call B) :=
  .ofFunction (fun s => s = ⟨begin B, 0⟩) perform

/-! ## The calls as steps of the thread -/

theorem begin_reachable : (Thread.system B).Reachable (begin B) := by
  have run : (Thread.system B).Exec [_, _, _, _] (begin B) :=
    (Exec.start rfl).record [.start, .next, .next, .next] rfl
  exact run.reachable

theorem exec_reachable {s s' : State B} {a : Action B}
    (run : (Thread.system B).Reachable s) (h : exec s a = .ok s') :
    (Thread.system B).Reachable s' :=
  run.next h

theorem call_reachable {s s' : State B} {c : Call B}
    (run : (Thread.system B).Reachable s) (h : call s c = .ok s') :
    (Thread.system B).Reachable s' := by
  cases c with
  | add i buffer => exact exec_reachable (a := .add i buffer) run h
  | garbageCollect first now =>
      obtain ⟨kicked, hkick, h⟩ := Code.bind_eq_ok.mp h
      have run := exec_reachable run hkick
      split at h
      · obtain ⟨reclaimed, hsweep, h⟩ := Code.bind_eq_ok.mp h
        have run := exec_reachable (a := .next) run hsweep
        exact exec_reachable (a := .next) run h
      · cases h
        exact run

/-! ## What a call does -/

structure Ready (s : State B) : Prop where
  invariant : Invariant s
  pc : s.pc = .threadMain

structure Untouched (s s' : State B) : Prop where
  pools : pools s' = pools s
  statGC : s'.statGC = s.statGC
  freed : s'.memory.freed = s.memory.freed

/-- Every buffer in the lists was freed once, no other, and they are empty. -/
structure Collected (s s' : State B) : Prop where
  pools : ∀ i, pools s' i = []
  freed : ∀ b, s'.memory.freed b =
    s.memory.freed b + if ∃ i, b ∈ Collection.pools s i then 1 else 0

inductive Effect (s : State B) : Call B → State B → Prop
  | add (i : Fin SLAB_DEPTH) (buffer : B) (memory : Memory B)
      (kept : memory.freed = s.memory.freed) :
      Effect s (.add i buffer) { s with memory := memory }
  | idle (first now : UInt64) (lastInMilliSec : Option UInt64)
      (idle : ¬ kicks s first now) :
      Effect s (.garbageCollect first now)
        { s with lastInMilliSec := lastInMilliSec }
  | collect {s' : State B} (first now : UInt64) (kick : kicks s first now)
      (collected : Collected s s')
      (statGC : s'.statGC =
        s.statGC.updated (UInt64.ofNat (poolBytes s)).toUInt32)
      (pc : s'.pc = s.pc) : Effect s (.garbageCollect first now) s'

theorem Effect.pc_eq {s s' : State B} {c : Call B} (h : Effect s c s') :
    s'.pc = s.pc := by
  cases h with
  | add | idle => rfl
  | collect _ _ _ _ _ pc => exact pc

namespace Ready

variable {s s' : State B}

theorem running (h : Ready s) : Running s.ctxPool s.pool s.tinst s.memory :=
  h.invariant.running (.inl (by rw [h.pc]; rfl))

theorem live (h : Ready s) : s.pool = some 0 ∧ s.memory.live 0 = some (pools s) := by
  have run := h.running
  obtain ⟨slabs, hholds⟩ := run.holds
  have hpools : pools s = slabs := by
    rw [pools, run.pool, Option.bind_some, hholds.live, Option.getD_some]
  exact ⟨run.pool, hpools ▸ hholds.live⟩

theorem listed_eq (h : Ready s) (b : B) :
    listed (pools s) b = if ∃ i, b ∈ pools s i then 1 else 0 := by
  have hbalance := h.invariant.balance b
  rw [State.balance, held_eq h.live.2] at hbalance
  split
  case isTrue hin =>
    obtain ⟨i, hi⟩ := hin
    have hpos := listed_pos hi
    omega
  case isFalse hout =>
    exact listed_eq_zero fun i hi => hout ⟨i, hi⟩

theorem exec_garbageCollect (h : Ready s) (first now : UInt64) :
    exec s (.garbageCollect first now) = .ok { s with
      lastInMilliSec := some (s.lastInMilliSec.getD first)
      pc := if kicks s first now then .gcKicked now else .threadMain } := by
  have run := h.running
  rw [exec, provided, decide_eq_true h.pc, if_pos rfl, garbageCollect,
    run.tinst, run.pool, h.pc]
  rfl

theorem runGarbageCollect_idle (h : Ready s) {first now : UInt64}
    (idle : ¬ kicks s first now) : runGarbageCollect s first now =
      .ok { s with lastInMilliSec := some (s.lastInMilliSec.getD first) } := by
  rw [runGarbageCollect, h.exec_garbageCollect, if_neg idle, h.pc]
  rfl

theorem runGarbageCollect_kick (h : Ready s) {first now : UInt64}
    (kick : kicks s first now) : runGarbageCollect s first now = .ok { s with
      statGC := s.statGC.updated (UInt64.ofNat (poolBytes s)).toUInt32
      lastInMilliSec := some now
      memory := { s.memory with
        live := Function.update s.memory.live 0 (some fun _ => [])
        freed := fun b => s.memory.freed b + listed (pools s) b } } := by
  obtain ⟨hpool, hlive⟩ := h.live
  have hbytes : slabBytes (pools s) (List.finRange SLAB_DEPTH) = poolBytes s :=
    (Fin.sum_univ_def fun i => (pools s i).length * slabSize i).symm
  rw [runGarbageCollect, h.exec_garbageCollect, if_pos kick]
  simp [advance, gcSweep, hpool, collect_eq hlive, PerfCounter.update_eq,
    hbytes, h.pc]

theorem pools_store (h : Ready s) (slabs : Slabs B) :
    pools (store s slabs) = slabs := by
  simp [pools, store, h.live.1]

theorem exec_add (h : Ready s) (i : Fin SLAB_DEPTH) (buffer : B) :
    exec s (.add i buffer) =
      if s.memory.freed buffer = 0 ∧ ∀ j, buffer ∉ pools s j then
        .ok (store s (Function.update (pools s) i (buffer :: pools s i)))
      else .error .blocked := by
  obtain ⟨hpool, hlive⟩ := h.live
  rw [exec, provided, decide_eq_true h.pc, if_pos rfl, add, store, hpool,
    deref_some, Code.ok_bind, slabs_eq hlive, Code.ok_bind, setSlab_eq hlive]
  rfl

theorem effect (h : Ready s) {c : Call B} (hcall : call s c = .ok s') :
    Effect s c s' := by
  cases c with
  | add i buffer =>
      rw [call, h.exec_add] at hcall
      split at hcall <;> cases hcall
      exact .add i buffer _ rfl
  | garbageCollect first now =>
      by_cases kick : kicks s first now
      · cases (h.runGarbageCollect_kick kick).symm.trans hcall
        refine .collect first now kick ⟨fun i => ?_, fun b => ?_⟩ rfl rfl
        · simp [pools, h.live.1]
        · rw [← h.listed_eq b]
      · cases (h.runGarbageCollect_idle kick).symm.trans hcall
        exact .idle first now _ kick

theorem collects (h : Ready s) (first now : UInt64) :
    ∃ s', call s (.garbageCollect first now) = .ok s' ∧
      (Untouched s s' ∨ Collected s s') := by
  obtain ⟨s', hcall⟩ : ∃ s', call s (.garbageCollect first now) = .ok s' := by
    by_cases kick : kicks s first now
    · exact ⟨_, h.runGarbageCollect_kick kick⟩
    · exact ⟨_, h.runGarbageCollect_idle kick⟩
  refine ⟨s', hcall, ?_⟩
  cases h.effect hcall with
  | idle _ _ lastInMilliSec idle => exact .inl ⟨rfl, rfl, rfl⟩
  | collect _ _ kick collected => exact .inr collected

end Ready

/-! ## The account -/

omit [DecidableEq B] in
theorem freedBytes_of_kept {s s' : State B}
    (kept : s'.memory.freed = s.memory.freed) : freedBytes s s' = 0 := by
  simp [freedBytes, kept]

theorem freedBytes_of_collected {s s' : State B} (h : Collected s s') :
    freedBytes s s' = poolBytes s := by
  unfold freedBytes poolBytes
  refine Finset.sum_congr rfl fun i _ => ?_
  congr 1
  refine List.countP_eq_length.mpr fun b hb => ?_
  rw [h.freed, if_pos ⟨i, hb⟩]
  simp

def Accounts (s : Account B) : Prop :=
  s.thread.statGC.val.toNat = s.reclaimed % 2 ^ 64

instance (s : Account B) : Decidable (Accounts s) :=
  inferInstanceAs (Decidable (_ = _))

def Fits (s : Account B) : Call B → Prop
  | .add _ _ => True
  | .garbageCollect first now =>
      kicks s.thread first now → poolBytes s.thread % 2 ^ 64 < 2 ^ 32

instance (s : Account B) (c : Call B) : Decidable (Fits s c) := by
  cases c <;> unfold Fits <;> infer_instance

omit [DecidableEq B] in
theorem updated_accounts_iff {counter : PerfCounter} {reclaimed : ℕ}
    (h : counter.val.toNat = reclaimed % 2 ^ 64) (bytes : ℕ) :
    (counter.updated (UInt64.ofNat bytes).toUInt32).val.toNat =
        (reclaimed + bytes) % 2 ^ 64 ↔
      bytes % 2 ^ 64 < 2 ^ 32 := by
  simp only [PerfCounter.updated, UInt64.toNat_add, UInt32.toNat_toUInt64,
    UInt64.toNat_toUInt32, UInt64.toNat_ofNat', h]
  omega

structure Sound (s : Account B) : Prop where
  reachable : (Thread.system B).Reachable s.thread
  ready : Ready s.thread

theorem perform_effect {s s' : Account B} {c : Call B} (h : Ready s.thread)
    (hstep : (system B).step s c s') :
    Effect s.thread c s'.thread ∧ call s.thread c = .ok s'.thread ∧
      s'.reclaimed = s.reclaimed + freedBytes s.thread s'.thread := by
  obtain ⟨thread, hcall, hs'⟩ := Code.bind_eq_ok.mp hstep
  cases hs'
  exact ⟨h.effect hcall, hcall, rfl⟩

theorem step_of_call {s : Account B} {c : Call B} {thread : State B}
    (h : call s.thread c = .ok thread) : (system B).step s c
      ⟨thread, s.reclaimed + freedBytes s.thread thread⟩ := by
  change perform s c = _
  rw [perform, h]
  rfl

theorem sound_inductive : (system B).Inductive Sound where
  init := by
    rintro s rfl
    exact ⟨begin_reachable, invariant_inductive.reachable begin_reachable, rfl⟩
  step {s c s'} h hstep := by
    obtain ⟨heffect, hcall, -⟩ := perform_effect h.ready hstep
    have reachable := call_reachable h.reachable hcall
    exact ⟨reachable, invariant_inductive.reachable reachable,
      heffect.pc_eq.trans h.ready.pc⟩

theorem Sound.accounts_iff {s s' : Account B} {c : Call B} (h : Sound s)
    (before : Accounts s) (hstep : (system B).step s c s') :
    Accounts s' ↔ Fits s c := by
  obtain ⟨heffect, -, hreclaimed⟩ := perform_effect h.ready hstep
  obtain ⟨thread, reclaimed⟩ := s'
  dsimp only at heffect hreclaimed
  subst hreclaimed
  cases heffect with
  | add i buffer memory kept =>
      simp [Accounts, freedBytes, kept, Fits]
      exact before
  | idle first now lastInMilliSec idle =>
      simp [Accounts, freedBytes, Fits, idle]
      exact before
  | collect first now kick collected statGC =>
      rw [Accounts, freedBytes_of_collected collected, statGC,
        updated_accounts_iff before]
      exact ⟨fun h _ => h, fun h => h kick⟩

theorem accounts_iff {tr : History (Account B) (Call B)} {s : Account B}
    (run : (system B).Exec tr s) :
    (∀ y ∈ visited tr s, Accounts y) ↔ Meets Fits tr := by
  refine run.safe_iff_meets_of_step_iff sound_inductive ?_ Sound.accounts_iff
  rintro s rfl
  rfl

theorem collections_account_iff {tr : History (Account B) (Call B)}
    {s : Account B} (run : (system B).Exec tr s) :
    (∀ first now, ∃ s', call s.thread (.garbageCollect first now) = .ok s' ∧
      (Untouched s.thread s' ∨ Collected s.thread s')) ∧
    ((∀ y ∈ visited tr s, Accounts y) ↔ Meets Fits tr) :=
  ⟨fun first now => (sound_inductive.exec run).ready.collects first now,
    accounts_iff run⟩

theorem collections_account_three :
    ∃ tr s, (system (Fin 3)).Exec tr s ∧ s.reclaimed = 3584 ∧
      ((∀ first now, ∃ s', call s.thread (.garbageCollect first now) = .ok s' ∧
        (Untouched s.thread s' ∨ Collected s.thread s')) ∧
      ((∀ y ∈ visited tr s, Accounts y) ↔ Meets Fits tr)) := by
  obtain ⟨tr, s, run, htest⟩ : ∃ tr s, (system (Fin 3)).Exec tr s ∧
      decide (s.reclaimed = 3584) = true :=
    Exec.ofRecord perform ⟨begin (Fin 3), 0⟩
      [.add 3 0, .garbageCollect 0 900, .add 0 1, .garbageCollect 0 2000,
        .add 1 2, .garbageCollect 0 3500]
      (fun r => decide (r.2.reclaimed = 3584)) rfl (by decide)
  exact ⟨tr, s, run, of_decide_eq_true htest, collections_account_iff run⟩

/-! ## A collection of 4 GiB -/

structure Filled (i : Fin SLAB_DEPTH) (n : ℕ) (s : Account ℕ) : Prop where
  reclaimed : s.reclaimed = 0
  lastInMilliSec : s.thread.lastInMilliSec = none
  statGC : s.thread.statGC = PerfCounter.construct
  freed : s.thread.memory.freed = fun _ => 0
  pools : pools s.thread =
    Function.update (fun _ => []) i (List.range n).reverse

theorem exec_adds (i : Fin SLAB_DEPTH) (n : ℕ) :
    ∃ tr s, (system ℕ).Exec tr s ∧ Filled i n s := by
  induction n with
  | zero =>
      refine ⟨[], _, .start rfl, rfl, rfl, rfl, rfl, ?_⟩
      simp [pools, begin, newPool, fresh]
  | succ n ih =>
      obtain ⟨tr, s, run, filled⟩ := ih
      have ready := (sound_inductive.exec run).ready
      have hnew : s.thread.memory.freed n = 0 ∧ ∀ j, n ∉ pools s.thread j := by
        rw [filled.freed, filled.pools]
        refine ⟨rfl, forall_update (fun _ slab => n ∉ slab) ?_ ?_⟩
        · simp
        · simp
      have hcall : call s.thread (.add i n) = .ok _ :=
        (ready.exec_add i n).trans (if_pos hnew)
      refine ⟨_, _, run.next (step_of_call hcall), ?_, filled.lastInMilliSec,
        filled.statGC, filled.freed, ?_⟩
      · refine (congrArg₂ _ filled.reclaimed (freedBytes_of_kept ?_)).trans
          (Nat.add_zero 0)
        rfl
      · change pools (store s.thread _) = _
        rw [ready.pools_store, filled.pools, Function.update_idem, Function.update_self,
          List.range_succ, List.reverse_append]
        rfl

theorem Filled.poolBytes_eq {i : Fin SLAB_DEPTH} {n : ℕ} {s : Account ℕ}
    (filled : Filled i n s) : poolBytes s.thread = n * slabSize i := by
  rw [poolBytes, filled.pools]
  refine (Finset.sum_eq_single i (fun j _ hj => ?_) (by simp)).trans ?_
  · simp [Function.update_of_ne hj]
  · simp

theorem collection_unaccounted :
    ∃ tr s, (system ℕ).Exec tr s ∧ s.reclaimed = 2 ^ 32 ∧
      s.thread.statGC.val = 0 ∧ ¬ Accounts s := by
  obtain ⟨tr, s, run, filled⟩ := exec_adds 3 (2 ^ 21)
  have ready := (sound_inductive.exec run).ready
  have kick : kicks s.thread 0 2000 := by
    rw [kicks, filled.lastInMilliSec]
    decide
  have hbytes : poolBytes s.thread = 2 ^ 32 := filled.poolBytes_eq
  obtain ⟨thread, hcall⟩ : ∃ thread,
      call s.thread (.garbageCollect 0 2000) = .ok thread :=
    ⟨_, ready.runGarbageCollect_kick kick⟩
  cases ready.effect hcall with
  | idle _ _ _ idle => exact absurd kick idle
  | collect _ _ _ collected statGC =>
      have hval : thread.statGC.val = 0 := by
        rw [statGC, hbytes, filled.statGC]
        decide
      have hreclaimed : s.reclaimed + freedBytes s.thread thread = 2 ^ 32 := by
        rw [filled.reclaimed, freedBytes_of_collected collected, hbytes,
          Nat.zero_add]
      refine ⟨_, _, run.next (step_of_call hcall), hreclaimed, hval, ?_⟩
      simp [Accounts, hreclaimed, hval]

end Collection

end Iocore.Thread
