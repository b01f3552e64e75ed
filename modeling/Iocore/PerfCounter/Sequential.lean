import Iocore.PerfCounter.Update

/-!
# Updates one after the other

When no call of `Update` is under way, the fields do not show how the calls
were interleaved: the counter is the one that the same calls leave one after
the other, in whatever order.  A call that no other overlaps makes no exchange
in vain, so the number of its steps is known when it begins.
-/

namespace Iocore.PerfCounter

open Foundation

/-- The calls one after the other, the last one first in the list. -/
def updatedAll (vals : List UInt32) : PerfCounter :=
  vals.foldr (fun val counter => counter.updated val) construct

def atRest (Tid : Type) (counter : PerfCounter) : State Tid :=
  ⟨counter, fun _ => .idle⟩

theorem offered_le (vals : List UInt32) : ∀ v ∈ offered vals, v ≤ UINT32_MAX := by
  intro v hv
  obtain ⟨val, -, rfl⟩ := List.mem_map.mp hv
  have hlt := val.toNat_lt
  rw [UInt64.le_iff_toNat_le, UInt32.toNat_toUInt64]
  change val.toNat ≤ 2 ^ 32 - 1
  omega

namespace Accounted

variable {Tid Tid' : Type} [Fintype Tid] [Fintype Tid'] {vals vals' : List UInt32}
  {s : State Tid} {t : State Tid'} {counter : PerfCounter}

theorem perm (h : Accounted vals s) (order : vals.Perm vals') :
    Accounted vals' s where
  known i val hval := order.subset (h.known i val hval)
  val := by
    have hsum : sum vals' = sum vals := (order.map UInt32.toNat).sum_eq.symm
    rw [hsum]
    exact h.val
  count := order.length_eq ▸ h.count
  bucket b := by
    rw [← order.countP_eq]
    exact h.bucket b
  min := ⟨h.min.offered.imp_right fun hmem => (order.map _).subset hmem,
    fun v hv => h.min.best v ((order.map _).symm.subset hv)⟩
  max := ⟨h.max.offered.imp_right fun hmem => (order.map _).subset hmem,
    fun v hv => h.max.best v ((order.map _).symm.subset hv)⟩

theorem unique (hs : Accounted vals s) (ht : Accounted vals t)
    (returned : ∀ i, s.pc i = .idle) (returned' : ∀ i, t.pc i = .idle) :
    s.counter = t.counter := by
  have hval : s.counter.val = t.counter.val := by
    refine UInt64.toNat_inj.mp ?_
    rw [hs.val.settled (fun i => by rw [returned i]; rfl) s.counter.val.toNat_lt,
      ht.val.settled (fun i => by rw [returned' i]; rfl) t.counter.val.toNat_lt]
  have hcount : s.counter.count = t.counter.count := by
    refine UInt64.toNat_inj.mp ?_
    rw [hs.count_eq returned, ht.count_eq returned']
  have hbucket : s.counter.bucket = t.counter.bucket := by
    funext b
    refine UInt32.toNat_inj.mp ?_
    rw [hs.bucket_eq returned, ht.bucket_eq returned']
  have hmin : s.counter.min = t.counter.min :=
    hs.min.unique ht.min (fun i => by rw [returned i]; rfl)
      (fun i => by rw [returned' i]; rfl) (offered_le vals) UInt64.le_antisymm
  have hmax : s.counter.max = t.counter.max :=
    hs.max.unique ht.max (fun i => by rw [returned i]; rfl)
      (fun i => by rw [returned' i]; rfl) (fun _ _ => UInt64.zero_le)
      fun hab hba => UInt64.le_antisymm hba hab
  cases hs' : s.counter
  cases ht' : t.counter
  simp_all

theorem updated (h : Accounted vals (atRest Tid counter)) (val : UInt32) :
    Accounted (val :: vals) (atRest Tid (counter.updated val)) where
  known _ _ hval := by cases hval
  val := by
    refine (Ledger.at_rest fun _ => rfl).mpr ?_
    have hbefore := (Ledger.at_rest fun _ => rfl).mp h.val
    change (counter.val + val.toUInt64).toNat ≡ val.toNat + sum vals [MOD _]
    rw [UInt64.toNat_add, UInt32.toNat_toUInt64, Nat.add_comm]
    exact (Nat.mod_modEq _ _).trans (hbefore.add_left _)
  count := by
    refine (Ledger.at_rest fun _ => rfl).mpr ?_
    have hbefore := (Ledger.at_rest fun _ => rfl).mp h.count
    change (counter.count + 1).toNat ≡ vals.length + 1 [MOD _]
    rw [UInt64.toNat_add]
    exact (Nat.mod_modEq _ _).trans (hbefore.add_right _)
  bucket b := by
    refine (Ledger.at_rest fun _ => rfl).mpr ?_
    have hbefore := (Ledger.at_rest fun _ => rfl).mp (h.bucket b)
    rw [List.countP_cons]
    change (if Belongs b val then counter.bucket b + 1
      else counter.bucket b).toNat ≡ _ [MOD _]
    by_cases hbelongs : Belongs b val
    · simp only [hbelongs, if_true, decide_true, UInt32.toNat_add]
      exact (Nat.mod_modEq _ _).trans (hbefore.add_right _)
    · simp only [hbelongs, if_false, decide_false, Bool.false_eq_true,
        Nat.add_zero]
      exact hbefore
  min := by
    by_cases hless : val.toUInt64 < counter.min
    · have hmin : (counter.updated val).min = val.toUInt64 := if_pos hless
      refine h.min.compare UInt64.le_trans (fun _ => rfl) (.inl hmin) ?_ ?_
      · exact UInt64.le_of_eq hmin
      · exact hmin ▸ UInt64.le_of_lt hless
    · have hmin : (counter.updated val).min = counter.min := if_neg hless
      refine h.min.compare UInt64.le_trans (fun _ => rfl) (.inr hmin) ?_ ?_
      · exact hmin ▸ UInt64.not_lt.mp hless
      · exact UInt64.le_of_eq hmin
  max := by
    have trans {a b c : UInt64} (hab : a ≥ b) (hbc : b ≥ c) : a ≥ c :=
      UInt64.le_trans hbc hab
    by_cases hgreater : val.toUInt64 > counter.max
    · have hmax : (counter.updated val).max = val.toUInt64 := if_pos hgreater
      refine h.max.compare trans (fun _ => rfl) (.inl hmax) ?_ ?_
      · exact UInt64.le_of_eq hmax.symm
      · exact hmax ▸ UInt64.le_of_lt hgreater
    · have hmax : (counter.updated val).max = counter.max := if_neg hgreater
      refine h.max.compare trans (fun _ => rfl) (.inr hmax) ?_ ?_
      · exact hmax ▸ UInt64.not_lt.mp hgreater
      · exact UInt64.le_of_eq hmax.symm

/-- Where no call is under way, the counter shows no trace of the schedule. -/
theorem counter_eq (h : Accounted vals s) (returned : ∀ i, s.pc i = .idle)
    (order : vals.Perm vals') : s.counter = updatedAll vals' := by
  have hall : Accounted vals' (atRest Unit (updatedAll vals')) := by
    clear order
    induction vals' with
    | nil => exact .initial
    | cons val vals' ih => exact ih.updated val
  exact (h.perm order).unique hall returned fun _ => rfl

end Accounted

/-! ## Calls that do not overlap -/

def stepsMax (counter : PerfCounter) (val : UInt32) : ℕ :=
  (if val.toUInt64 > counter.max then 3 else 1) + 1

def stepsMin (counter : PerfCounter) (val : UInt32) : ℕ :=
  (if val.toUInt64 < counter.min then 3 else 1) + stepsMax counter val

def stepsLeft (counter : PerfCounter) : Pc → ℕ
  | .idle => 0
  | .addVal val => stepsMin counter val + 2
  | .addCount val => stepsMin counter val + 1
  | .loadMin val => stepsMin counter val
  | .exchangeMin val _ _ => stepsMax counter val + 2
  | .loadMax val => stepsMax counter val
  | .exchangeMax _ _ _ => 3
  | .addBucket _ => 1

def Pc.Fresh (counter : PerfCounter) : Pc → Prop
  | .exchangeMin _ minCount _ => minCount = counter.min
  | .exchangeMax _ maxCount _ => maxCount = counter.max
  | _ => True

theorem stepsLeft_addVal_le (counter : PerfCounter) (val : UInt32) :
    stepsLeft counter (.addVal val) ≤ 9 := by
  rw [stepsLeft, stepsMin, stepsMax]
  split <;> split <;> omega

variable {Tid : Type} [DecidableEq Tid]

@[simp] theorem State.goto_pc_self (s : State Tid) (i : Tid) (pc : Pc)
    (counter : PerfCounter) : (s.goto i pc counter).pc i = pc :=
  Function.update_self ..

@[simp] theorem State.goto_counter (s : State Tid) (i : Tid) (pc : Pc)
    (counter : PerfCounter) : (s.goto i pc counter).counter = counter := rfl

theorem exec_blocked {s : State Tid} {a : Action Tid} {stop : Stop}
    (h : exec s a = .error stop) : stop = .blocked := by
  cases a with
  | update i val =>
      rw [exec] at h
      split at h <;> cases h
      rfl
  | next i =>
      change advance s i = _ at h
      unfold advance at h
      cases hpc : s.pc i with
      | idle =>
          simp only [hpc] at h
          cases h
          rfl
      | addBucket val => simp [hpc, updateBucket_eq] at h
      | loadMin val | loadMax val =>
          simp only [hpc] at h
          split at h <;> cases h
      | _ => simp [hpc] at h

theorem StepCases.undisturbed {s s' : State Tid} {i : Tid}
    (h : StepCases s (.next i) s')
    (fresh : (s.pc i).Fresh s.counter) :
    (s'.pc i).Fresh s'.counter ∧
      stepsLeft s'.counter (s'.pc i) + 1 = stepsLeft s.counter (s.pc i) := by
  cases h with
  | addVal _ val before | addCount _ val before =>
      rw [before, State.goto_pc_self, State.goto_counter]
      exact ⟨trivial, rfl⟩
  | loadMin _ val before less =>
      rw [before, State.goto_pc_self, State.goto_counter]
      refine ⟨rfl, ?_⟩
      simp only [stepsLeft, stepsMin, if_pos less]
      omega
  | leaveMin _ val before least =>
      rw [before, State.goto_pc_self, State.goto_counter]
      refine ⟨trivial, ?_⟩
      simp only [stepsLeft, stepsMin, if_neg least]
      omega
  | exchangeMin _ val less before =>
      rw [before, State.goto_pc_self, State.goto_counter]
      refine ⟨trivial, ?_⟩
      simp only [stepsLeft, stepsMin, UInt64.lt_irrefl, if_false]
      change 1 + stepsMax s.counter val + 1 = stepsMax s.counter val + 2
      omega
  | loadMax _ val before greater =>
      rw [before, State.goto_pc_self, State.goto_counter]
      refine ⟨rfl, ?_⟩
      simp only [stepsLeft, stepsMax, if_pos greater]
  | leaveMax _ val before greatest =>
      rw [before, State.goto_pc_self, State.goto_counter]
      refine ⟨trivial, ?_⟩
      simp only [stepsLeft, stepsMax, if_neg greatest]
  | exchangeMax _ val greater before =>
      rw [before, State.goto_pc_self, State.goto_counter]
      refine ⟨trivial, ?_⟩
      simp only [stepsLeft, stepsMax, gt_iff_lt, UInt64.lt_irrefl, if_false]
  | addBucket _ val before =>
      rw [before, State.goto_pc_self, State.goto_counter]
      exact ⟨trivial, rfl⟩
  | retryMin _ val minCount less before stale =>
      rw [before] at fresh
      exact absurd fresh.symm stale
  | retryMax _ val maxCount greater before stale =>
      rw [before] at fresh
      exact absurd fresh.symm stale

end Iocore.PerfCounter
