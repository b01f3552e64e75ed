import Iocore.Foundation.Parts
import Iocore.PerfCounter.Sequential
import Iocore.Thread.Collection

/-!
# Threads that share a counter

Each thread has its own slab pools, and all of them update one `statGC_`.  The
call of `Update` is as many steps as it has atomic operations, and the other
threads go on between them.  A call that runs alone, as in the model of a
single thread, leaves there what the others can only see once it is over.
-/

namespace Iocore.Thread.Fleet

open Foundation Foundation.System Memory Collection

structure State (Tid B : Type) where
  threads : Tid → Thread.State B
  statGC : PerfCounter.State Tid

inductive Action (Tid B : Type) where
  | act (i : Tid) (a : Thread.Action B)
  | count (i : Tid)
  deriving DecidableEq, Repr

def initial (Tid B : Type) : State Tid B :=
  ⟨fun _ => Thread.initial B, PerfCounter.initial Tid⟩

def ofThread {B : Type} : Thread.Action B → Bool
  | .start | .cancel | .join | .destroy | .destruct => false
  | _ => true

variable {Tid B : Type} [DecidableEq Tid] [DecidableEq B]

def sweptBytes (s : Thread.State B) : UInt64 :=
  match (do collect s.memory (← deref s.pool) : Code (Memory B × UInt64)) with
  | .ok (_, bytes) => bytes
  | .error _ => 0

def sweeps (s : Thread.State B) : Thread.Action B → Option UInt64
  | .next =>
      match s.pc with
      | .gcKicked _ => some (sweptBytes s)
      | _ => none
  | _ => none

def beginUpdate (statGC : PerfCounter.State Tid) (i : Tid) :
    Option UInt64 → Code (PerfCounter.State Tid)
  | none => .ok statGC
  | some bytes => PerfCounter.exec statGC (.update i bytes.toUInt32)

/-- A thread that sweeps is in `statGC_.Update(bytes)` afterwards. -/
def exec (s : State Tid B) : Action Tid B → Code (State Tid B)
  | .act i a =>
      if ofThread a ∧ s.statGC.pc i ≠ .idle then .error .blocked
      else do
        let thread ← Thread.exec (s.threads i) a
        let statGC ← beginUpdate s.statGC i (sweeps (s.threads i) a)
        return ⟨Function.update s.threads i thread, statGC⟩
  | .count i => do
      let statGC ← PerfCounter.exec s.statGC (.next i)
      return { s with statGC := statGC }

def system (Tid B : Type) [DecidableEq Tid] [DecidableEq B] :
    System (State Tid B) (Action Tid B) :=
  .ofFunction (fun s => s = initial Tid B) exec

/-! ## The threads and the counter as parts -/

def does (i : Tid) (_ : State Tid B) : Action Tid B → Option (Thread.Action B)
  | .act j a => if j = i then some a else none
  | .count _ => none

def counts (s : State Tid B) : Action Tid B → Option (PerfCounter.Action Tid)
  | .act i a => (sweeps (s.threads i) a).map fun bytes =>
      .update i bytes.toUInt32
  | .count i => some (.next i)

theorem step_parts {s s' : State Tid B} {a : Action Tid B}
    (h : (system Tid B).step s a s') :
    (∀ i, (Thread.system B).Takes (s.threads i) (does i s a) (s'.threads i)) ∧
      (PerfCounter.system Tid).Takes s.statGC (counts s a) s'.statGC := by
  change exec s a = .ok s' at h
  cases a with
  | count i =>
      obtain ⟨statGC, hstat, hs'⟩ := Code.bind_eq_ok.mp h
      cases hs'
      exact ⟨fun _ => rfl, hstat⟩
  | act i a =>
      rw [exec] at h
      split at h
      case isTrue => cases h
      case isFalse =>
        obtain ⟨thread, hthread, h⟩ := Code.bind_eq_ok.mp h
        obtain ⟨statGC, hstat, hs'⟩ := Code.bind_eq_ok.mp h
        cases hs'
        refine ⟨fun j => ?_, ?_⟩
        · by_cases hj : i = j
          · subst hj
            simp only [does, if_true, Function.update_self]
            exact hthread
          · simp only [does, if_neg hj, Function.update_of_ne (Ne.symm hj)]
            rfl
        · rw [counts]
          cases hbytes : sweeps (s.threads i) a with
          | none =>
              rw [hbytes] at hstat
              cases hstat
              rfl
          | some bytes =>
              rw [hbytes] at hstat
              exact hstat

theorem thread_part (i : Tid) : Part (system Tid B) (Thread.system B)
    (fun s => s.threads i) (does i) where
  init := by
    rintro s rfl
    rfl
  step _ h := (step_parts h).1 i

theorem counter_part : Part (system Tid B) (PerfCounter.system Tid)
    State.statGC counts where
  init := by
    rintro s rfl
    rfl
  step _ h := (step_parts h).2

variable {s : State Tid B}

theorem invariant (run : (system Tid B).Reachable s) (i : Tid) :
    Thread.Invariant (s.threads i) :=
  invariant_inductive.reachable ((thread_part i).reachable run)

/-! ## Nothing goes wrong -/

theorem sweeps_eq_some {s : Thread.State B} {a : Thread.Action B} {bytes : UInt64}
    (h : sweeps s a = some bytes) :
    a = .next ∧ (∃ now, s.pc = .gcKicked now) ∧ bytes = sweptBytes s := by
  cases a with
  | next =>
      cases hpc : s.pc <;> simp only [sweeps, hpc] at h <;> cases h
      exact ⟨rfl, ⟨_, rfl⟩, rfl⟩
  | _ => cases h

theorem sweptBytes_eq {s : Thread.State B} {now : UInt64}
    (inv : Thread.Invariant s) (hpc : s.pc = .gcKicked now) :
    sweptBytes s = UInt64.ofNat (poolBytes s) := by
  have run := inv.running (.inl (by rw [hpc]; rfl))
  obtain ⟨slabs, hholds⟩ := run.holds
  have hpools : pools s = slabs := by
    rw [pools, run.pool, Option.bind_some, hholds.live, Option.getD_some]
  have hbytes : slabBytes slabs (List.finRange SLAB_DEPTH) = poolBytes s := by
    rw [poolBytes, hpools]
    exact (Fin.sum_univ_def fun i => (slabs i).length * slabSize i).symm
  rw [sweptBytes, run.pool, deref_some, Code.ok_bind, collect_eq hholds.live,
    hbytes]

theorem exec_blocked (run : (system Tid B).Reachable s) {a : Action Tid B}
    {stop : Stop} (h : exec s a = .error stop) : stop = .blocked := by
  cases a with
  | count i =>
      cases hstat : PerfCounter.exec s.statGC (.next i) with
      | ok statGC => simp [exec, hstat, pure, Except.pure] at h
      | error e =>
          simp only [exec, hstat, Code.error_bind, Except.error.injEq] at h
          exact h ▸ PerfCounter.exec_blocked hstat
  | act i a =>
      rw [exec] at h
      split at h
      case isTrue =>
        cases h
        rfl
      case isFalse hfree =>
        cases hthread : Thread.exec (s.threads i) a with
        | error e =>
            rw [hthread] at h
            cases h
            exact (exec_safe (invariant run i) a).of_error hthread
        | ok thread =>
            rw [hthread, Code.ok_bind] at h
            cases hbytes : sweeps (s.threads i) a with
            | none =>
                rw [hbytes] at h
                cases h
            | some bytes =>
                obtain ⟨rfl, -, -⟩ := sweeps_eq_some hbytes
                have hidle : s.statGC.pc i = .idle := by
                  by_contra hne
                  exact hfree ⟨rfl, hne⟩
                simp [hbytes, beginUpdate, PerfCounter.exec, hidle, pure,
                  Except.pure] at h

/-! ## The account of all threads -/

def collections (tr : History (State Tid B) (Action Tid B)) : List UInt32 :=
  observed (fun s a => match a with
    | .act i a => (sweeps (s.threads i) a).map UInt64.toUInt32
    | .count _ => none) tr

def reclaimed (tr : History (State Tid B) (Action Tid B)) : ℕ :=
  (observed (fun s a => match a with
    | .act i a => (sweeps (s.threads i) a).map fun _ => poolBytes (s.threads i)
    | .count _ => none) tr).sum

def Fits (s : State Tid B) : Action Tid B → Prop
  | .act i a => sweeps (s.threads i) a ≠ none → poolBytes (s.threads i) < 2 ^ 32
  | .count _ => True

instance (s : State Tid B) (a : Action Tid B) : Decidable (Fits s a) := by
  cases a <;> unfold Fits <;> infer_instance

variable {tr : History (State Tid B) (Action Tid B)}

omit [DecidableEq Tid] in
theorem begun_eq (tr : History (State Tid B) (Action Tid B)) :
    PerfCounter.begun (Part.history State.statGC counts tr) = collections tr := by
  rw [PerfCounter.begun, Part.observed_history, collections]
  congr 1
  funext s a
  cases a with
  | count i => rfl
  | act i a =>
      cases hbytes : sweeps (s.threads i) a <;> simp [counts, hbytes]

theorem sum_collections (run : (system Tid B).Exec tr s) (fits : Meets Fits tr) :
    PerfCounter.sum (collections tr) = reclaimed tr := by
  induction run with
  | start => rfl
  | @next tr s s' a run step ih =>
      obtain ⟨hfits, hrest⟩ := meets_cons.mp fits
      have ih := ih hrest
      rw [collections, reclaimed, observed_cons, observed_cons, ← collections]
      cases a with
      | count i => exact ih
      | act i a =>
          cases hbytes : sweeps (s.threads i) a with
          | none =>
              simp only [hbytes, Option.map_none, Option.toList_none,
                List.nil_append]
              exact ih
          | some bytes =>
              obtain ⟨-, ⟨now, hpc⟩, rfl⟩ := sweeps_eq_some hbytes
              have hsmall := hfits (by rw [hbytes]; nofun)
              have hval : (sweptBytes (s.threads i)).toUInt32.toNat =
                  poolBytes (s.threads i) := by
                rw [sweptBytes_eq (invariant run.reachable i) hpc,
                  UInt64.toNat_toUInt32, UInt64.toNat_ofNat']
                omega
              simp only [hbytes, Option.map_some, Option.toList_some,
                List.singleton_append, List.sum_cons, ← hval]
              exact congrArg _ ih

theorem counter_eq [Fintype Tid] (run : (system Tid B).Exec tr s)
    (returned : ∀ i, s.statGC.pc i = .idle) :
    s.statGC.counter = PerfCounter.updatedAll (collections tr) := by
  have haccounted := PerfCounter.accounted_exec (counter_part.exec run)
  rw [begun_eq] at haccounted
  exact haccounted.counter_eq returned (List.Perm.refl _)

theorem counter_val [Fintype Tid] (run : (system Tid B).Exec tr s)
    (returned : ∀ i, s.statGC.pc i = .idle) (fits : Meets Fits tr) :
    s.statGC.counter.val.toNat = reclaimed tr % 2 ^ 64 := by
  have haccounted := PerfCounter.accounted_exec (counter_part.exec run)
  rw [begun_eq] at haccounted
  rw [← sum_collections run fits]
  exact haccounted.val.settled (fun i => by rw [returned i]; rfl)
    s.statGC.counter.val.toNat_lt

/-! ## Buffers that go from one thread to another -/

def Distinct (s : State Tid B) : Action Tid B → Prop
  | .act i (.add _ b) => ∀ j, j ≠ i → (s.threads j).balance b = 0
  | _ => True

instance [Fintype Tid] (s : State Tid B) (a : Action Tid B) :
    Decidable (Distinct s a) := by
  unfold Distinct
  split <;> infer_instance

theorem settle_le_of_ne_add {a : Thread.Action B} {b : B}
    (h : ¬ ∃ k, a = .add k b) (n : ℕ) : a.settle b n ≤ n := by
  cases a with
  | add k buffer =>
      have hb : b ≠ buffer := fun e => h ⟨k, by rw [e]⟩
      rw [Thread.Action.settle, if_neg hb]
  | take k buffer =>
      rw [Thread.Action.settle]
      split <;> omega
  | _ => exact le_rfl

theorem balance_le [Fintype Tid] (run : (system Tid B).Exec tr s)
    (distinct : Meets Distinct tr) (b : B) :
    total (fun t : Thread.State B => t.balance b) s.threads ≤ 1 := by
  induction run with
  | start init =>
      obtain rfl := init
      exact (Finset.sum_eq_zero fun i _ => rfl).le.trans (Nat.zero_le 1)
  | @next tr s s' a run step ih =>
      obtain ⟨hdistinct, hrest⟩ := meets_cons.mp distinct
      have ih := ih hrest
      have hparts := (step_parts step).1
      cases a with
      | count i =>
          have hsame : s'.threads = s.threads := funext hparts
          rwa [hsame]
      | act i a =>
          have hmine := hparts i
          rw [does, if_pos rfl] at hmine
          have change : Thread.Change (s.threads i) a (s'.threads i) :=
            (exec_safe (invariant run.reachable i) a).of_ok hmine
          have hupdate : s'.threads =
              Function.update s.threads i (s'.threads i) := by
            refine funext fun j => ?_
            by_cases hj : j = i
            · rw [hj, Function.update_self]
            · have hother := hparts j
              rw [does, if_neg (Ne.symm hj)] at hother
              rw [Function.update_of_ne hj]
              exact hother
          have htotal := total_update (fun t : Thread.State B => t.balance b)
            s.threads i (s'.threads i)
          rw [← hupdate, change.balance b] at htotal
          by_cases hnew : ∃ k, a = .add k b
          · obtain ⟨k, rfl⟩ := hnew
            have hothers : total (fun t : Thread.State B => t.balance b)
                s.threads = (s.threads i).balance b :=
              Finset.sum_eq_single i (fun j _ hj => hdistinct j hj)
                fun h => absurd (Finset.mem_univ i) h
            rw [hothers, Thread.Action.settle, if_pos rfl] at htotal
            omega
          · have hsettle := settle_le_of_ne_add hnew ((s.threads i).balance b)
            omega

/--
Threads that share the counter: each of them does what it does on its own, and
nothing fails.  Where no call of `Update` is under way, the counter is as the
collections one after the other leave it, and has the bytes they found unless
one came to 4 GiB.  A buffer that is passed between threads is freed once.
-/
theorem fleet_accounts [Fintype Tid] (run : (system Tid B).Exec tr s) :
    (∀ i, (Thread.system B).Exec
      (Part.history (fun s : State Tid B => s.threads i) (does i) tr)
      (s.threads i)) ∧
    (∀ a stop, exec s a = .error stop → stop = .blocked) ∧
    ((∀ i, s.statGC.pc i = .idle) →
      s.statGC.counter = PerfCounter.updatedAll (collections tr) ∧
      (Meets Fits tr →
        s.statGC.counter.val.toNat = reclaimed tr % 2 ^ 64)) ∧
    (Meets Distinct tr → ∀ b, ∑ i, (s.threads i).memory.freed b ≤ 1) := by
  refine ⟨fun i => (thread_part i).exec run,
    fun a stop => exec_blocked run.reachable,
    fun returned => ⟨counter_eq run returned, counter_val run returned⟩,
    fun distinct b => ?_⟩
  calc ∑ i, (s.threads i).memory.freed b
      ≤ ∑ i, (s.threads i).balance b :=
        Finset.sum_le_sum fun i _ => Nat.le_add_right _ _
    _ ≤ 1 := balance_le run distinct b

theorem two_collections_account :
    ∃ tr s, (system (Fin 2) (Fin 2)).Exec tr s ∧
      collections tr = [1024, 2048] ∧ s.statGC.counter.val.toNat = 3072 ∧
      ∑ i, (s.threads i).memory.freed 0 ≤ 1 := by
  obtain ⟨tr, s, run, htest⟩ : ∃ tr s, (system (Fin 2) (Fin 2)).Exec tr s ∧
      decide ((∀ i, s.statGC.pc i = .idle) ∧ Meets Fits tr ∧
        Meets Distinct tr ∧ collections tr = [1024, 2048] ∧
        reclaimed tr = 3072) = true :=
    Exec.ofRecord exec (initial (Fin 2) (Fin 2))
      (List.flatten [[.act 0 .start, .act 1 .start, .act 0 .next, .act 1 .next,
          .act 0 .next, .act 1 .next, .act 0 .next, .act 1 .next,
          .act 0 (.add 0 0), .act 0 (.take 0 0), .act 1 (.add 1 0),
          .act 0 (.add 3 1), .act 0 (.garbageCollect 0 1001), .act 0 .next,
          .act 1 (.garbageCollect 0 1001), .act 1 .next, .count 0, .count 1,
          .count 0, .count 1, .count 0, .count 1, .count 0, .count 1],
        List.replicate 5 (.count 0), List.replicate 5 (.count 1)])
      (fun r => decide ((∀ i, r.2.statGC.pc i = .idle) ∧ Meets Fits r.1 ∧
        Meets Distinct r.1 ∧ collections r.1 = [1024, 2048] ∧
        reclaimed r.1 = 3072))
      rfl (by decide)
  obtain ⟨hidle, hfits, hdistinct, hcollections, hreclaimed⟩ :=
    of_decide_eq_true htest
  obtain ⟨-, -, haccount, hfreed⟩ := fleet_accounts run
  have hval := (haccount hidle).2 hfits
  rw [hreclaimed] at hval
  exact ⟨tr, s, run, hcollections, hval, hfreed hdistinct 0⟩

end Iocore.Thread.Fleet
