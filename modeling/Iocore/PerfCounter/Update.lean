import Iocore.Foundation.Accounting
import Iocore.PerfCounter.Steps

/-!
# No update is lost

Every call of `Update` carries its value through six fields.  The sum, the
count and the buckets are ledgers; the minimum and the maximum are tracked by
loops that exchange the field only for a better value, so a stale snapshot
costs a retry and nothing else.  When no call is under way the fields
summarise exactly the values of the calls that were made.
-/

namespace Iocore.PerfCounter

open Foundation Foundation.System

namespace Pc

def value : Pc → Option UInt32
  | .idle => none
  | .addVal val | .addCount val | .loadMin val | .exchangeMin val _ _
  | .loadMax val | .exchangeMax val _ _ | .addBucket val => some val

def carriedVal : Pc → ℕ
  | .addVal val => val.toNat
  | _ => 0

def carriedCount : Pc → ℕ
  | .addVal _ | .addCount _ => 1
  | _ => 0

def carriedBucket (b : Fin 32) (pc : Pc) : ℕ :=
  match pc.value with
  | none => 0
  | some val => if Belongs b val then 1 else 0

def heldMin : Pc → Option UInt64
  | .addVal val | .addCount val | .loadMin val | .exchangeMin val _ _ =>
      some val.toUInt64
  | _ => none

def heldMax : Pc → Option UInt64
  | .addVal val | .addCount val | .loadMin val | .exchangeMin val _ _
  | .loadMax val | .exchangeMax val _ _ => some val.toUInt64
  | _ => none

end Pc

def offered (vals : List UInt32) : List UInt64 := vals.map UInt32.toUInt64

def sum (vals : List UInt32) : ℕ := (vals.map UInt32.toNat).sum

variable {Tid : Type} [DecidableEq Tid] [Fintype Tid]

/-- The counter and the calls under way account for the values begun. -/
structure Accounted (vals : List UInt32) (s : State Tid) : Prop where
  known : ∀ i val, (s.pc i).value = some val → val ∈ vals
  val : Ledger (2 ^ 64) Pc.carriedVal s.pc s.counter.val.toNat (sum vals)
  count : Ledger (2 ^ 64) Pc.carriedCount s.pc s.counter.count.toNat vals.length
  bucket : ∀ b, Ledger (2 ^ 32) (Pc.carriedBucket b) s.pc
    (s.counter.bucket b).toNat (vals.countP fun val => Belongs b val)
  min : Tracks (· ≤ ·) UINT32_MAX s.counter.min (offered vals) Pc.heldMin s.pc
  max : Tracks (· ≥ ·) 0 s.counter.max (offered vals) Pc.heldMax s.pc

namespace Accounted

variable {vals : List UInt32} {s s' : State Tid} {i : Tid} {val : UInt32}

omit [DecidableEq Tid] in
theorem initial : Accounted [] (PerfCounter.initial Tid) where
  known _ _ h := by cases h
  val := by
    unfold Ledger total
    simp [PerfCounter.initial, construct, Pc.carriedVal, sum, Nat.ModEq]
  count := by
    unfold Ledger total
    simp [PerfCounter.initial, construct, Pc.carriedCount, Nat.ModEq]
  bucket b := by
    unfold Ledger total
    simp [PerfCounter.initial, construct, Pc.carriedBucket, Pc.value, Nat.ModEq]
  min := Tracks.start ..
  max := Tracks.start ..

private theorem known_update (h : Accounted vals s) {pc : Pc}
    (same : pc.value = (s.pc i).value ∨ pc.value = none) :
    ∀ j val, (Function.update s.pc i pc j).value = some val → val ∈ vals := by
  intro j val hval
  by_cases hj : j = i
  · subst hj
    rw [Function.update_self] at hval
    rcases same with same | same
    · exact h.known j val (same ▸ hval)
    · simp [same] at hval
  · rw [Function.update_of_ne hj] at hval
    exact h.known j val hval

theorem call (h : Accounted vals s) (hpc : s.pc i = .idle) (val : UInt32) :
    Accounted (val :: vals) (s.goto i (.addVal val) s.counter) where
  known := by
    intro j w hw
    by_cases hj : j = i
    · subst hj
      have hvalue : (Pc.addVal val).value = some w := by
        simpa [State.goto] using hw
      cases hvalue
      exact List.mem_cons_self
    · have hvalue : (s.pc j).value = some w := by
        simpa [State.goto, Function.update_of_ne hj] using hw
      exact List.mem_cons_of_mem val (h.known j w hvalue)
  val := h.val.issue (by rw [hpc]; exact (Nat.zero_add _).symm)
  count := by
    have := h.count.issue (i := i) (x := .addVal val) (n := 1) (by rw [hpc]; rfl)
    rwa [Nat.add_comm] at this
  bucket b := by
    have hissue := (h.bucket b).issue (i := i) (x := .addVal val)
      (n := if Belongs b val then 1 else 0) (by
        rw [hpc]
        exact (Nat.zero_add _).symm)
    rw [List.countP_cons, Nat.add_comm]
    simp only [decide_eq_true_eq]
    exact hissue
  min := h.min.offer (by rw [hpc]; rfl) rfl
  max := h.max.offer (by rw [hpc]; rfl) rfl

private theorem quiet (h : Accounted vals s) {pc : Pc}
    (same : pc.value = (s.pc i).value ∧
      pc.carriedVal = (s.pc i).carriedVal ∧
      pc.carriedCount = (s.pc i).carriedCount ∧
      pc.heldMin = (s.pc i).heldMin ∧ pc.heldMax = (s.pc i).heldMax) :
    Accounted vals (s.goto i pc s.counter) where
  known := h.known_update (.inl same.1)
  val := h.val.keep same.2.1
  count := h.count.keep same.2.2.1
  bucket b := (h.bucket b).keep (by rw [Pc.carriedBucket, same.1]; rfl)
  min := h.min.keep same.2.2.2.1
  max := h.max.keep same.2.2.2.2

private theorem addVal (h : Accounted vals s) (hpc : s.pc i = .addVal val) :
    Accounted vals (s.goto i (.addCount val)
      { s.counter with val := s.counter.val + val.toUInt64 }) where
  known := h.known_update (.inl (by rw [hpc]; rfl))
  val := by
    refine h.val.enter (n := val.toNat) (by rw [hpc]; exact Nat.zero_add _) ?_
    change (s.counter.val + val.toUInt64).toNat ≡ _ [MOD _]
    rw [UInt64.toNat_add]
    exact Nat.mod_modEq _ _
  count := h.count.keep (by rw [hpc]; rfl)
  bucket b := (h.bucket b).keep (by rw [hpc]; rfl)
  min := h.min.keep (by rw [hpc]; rfl)
  max := h.max.keep (by rw [hpc]; rfl)

private theorem addCount (h : Accounted vals s) (hpc : s.pc i = .addCount val) :
    Accounted vals (s.goto i (.loadMin val)
      { s.counter with count := s.counter.count + 1 }) where
  known := h.known_update (.inl (by rw [hpc]; rfl))
  val := h.val.keep (by rw [hpc]; rfl)
  count := by
    refine h.count.enter (n := 1) (by rw [hpc]; rfl) ?_
    change (s.counter.count + 1).toNat ≡ _ [MOD _]
    rw [UInt64.toNat_add]
    exact Nat.mod_modEq _ _
  bucket b := (h.bucket b).keep (by rw [hpc]; rfl)
  min := h.min.keep (by rw [hpc]; rfl)
  max := h.max.keep (by rw [hpc]; rfl)

omit [DecidableEq Tid] in
private theorem mem_offered (h : Accounted vals s)
    (hval : (s.pc i).value = some val) : val.toUInt64 ∈ offered vals :=
  List.mem_map_of_mem (h.known i val hval)

private theorem leaveMin (h : Accounted vals s) (hpc : s.pc i = .loadMin val)
    (hleast : ¬ val.toUInt64 < s.counter.min) :
    Accounted vals (s.goto i (.loadMax val) s.counter) where
  known := h.known_update (.inl (by rw [hpc]; rfl))
  val := h.val.keep (by rw [hpc]; rfl)
  count := h.count.keep (by rw [hpc]; rfl)
  bucket b := (h.bucket b).keep (by rw [hpc]; rfl)
  min := h.min.settle (by rw [hpc]; rfl) (UInt64.not_lt.mp hleast)
  max := h.max.keep (by rw [hpc]; rfl)

private theorem exchangeMin (h : Accounted vals s) {less}
    (hpc : s.pc i = .exchangeMin val s.counter.min less) :
    Accounted vals (s.goto i (.loadMin val)
      { s.counter with min := val.toUInt64 }) where
  known := h.known_update (.inl (by rw [hpc]; rfl))
  val := h.val.keep (by rw [hpc]; rfl)
  count := h.count.keep (by rw [hpc]; rfl)
  bucket b := (h.bucket b).keep (by rw [hpc]; rfl)
  min := (h.min.exchange UInt64.le_trans (h.mem_offered (by rw [hpc]; rfl))
    (UInt64.le_of_lt less)).keep (by rw [hpc]; rfl)
  max := h.max.keep (by rw [hpc]; rfl)

private theorem leaveMax (h : Accounted vals s) (hpc : s.pc i = .loadMax val)
    (hgreatest : ¬ val.toUInt64 > s.counter.max) :
    Accounted vals (s.goto i (.addBucket val) s.counter) where
  known := h.known_update (.inl (by rw [hpc]; rfl))
  val := h.val.keep (by rw [hpc]; rfl)
  count := h.count.keep (by rw [hpc]; rfl)
  bucket b := (h.bucket b).keep (by rw [hpc]; rfl)
  min := h.min.keep (by rw [hpc]; rfl)
  max := h.max.settle (by rw [hpc]; rfl) (UInt64.not_lt.mp hgreatest)

private theorem exchangeMax (h : Accounted vals s) {greater}
    (hpc : s.pc i = .exchangeMax val s.counter.max greater) :
    Accounted vals (s.goto i (.loadMax val)
      { s.counter with max := val.toUInt64 }) where
  known := h.known_update (.inl (by rw [hpc]; rfl))
  val := h.val.keep (by rw [hpc]; rfl)
  count := h.count.keep (by rw [hpc]; rfl)
  bucket b := (h.bucket b).keep (by rw [hpc]; rfl)
  min := h.min.keep (by rw [hpc]; rfl)
  max := (h.max.exchange (fun hab hbc => UInt64.le_trans hbc hab)
    (h.mem_offered (by rw [hpc]; rfl)) (UInt64.le_of_lt greater)).keep
      (by rw [hpc]; rfl)

private theorem addBucket (h : Accounted vals s)
    (hpc : s.pc i = .addBucket val) :
    Accounted vals (s.goto i .idle { s.counter with
      bucket := fun b => if Belongs b val then s.counter.bucket b + 1
        else s.counter.bucket b }) := by
  constructor
  · exact h.known_update (.inr rfl)
  · exact h.val.keep (by rw [hpc]; rfl)
  · exact h.count.keep (by rw [hpc]; rfl)
  · intro b
    change Ledger _ _ (Function.update s.pc i .idle) (UInt32.toNat (ite _ _ _)) _
    by_cases hbelongs : Belongs b val
    · rw [if_pos hbelongs, UInt32.toNat_add]
      refine (h.bucket b).enter (n := 1) ?_ (Nat.mod_modEq _ _)
      rw [hpc]
      exact (if_pos hbelongs).symm
    · rw [if_neg hbelongs]
      refine (h.bucket b).keep ?_
      rw [hpc]
      exact (if_neg hbelongs).symm
  · exact h.min.keep (by rw [hpc]; rfl)
  · exact h.max.keep (by rw [hpc]; rfl)

theorem step (h : Accounted vals s) {a : Action Tid}
    (hstep : StepCases s a s') : Accounted (a.began.toList ++ vals) s' := by
  cases hstep with
  | call _ val before => exact h.call before val
  | addVal _ val before => exact h.addVal before
  | addCount _ val before => exact h.addCount before
  | loadMin _ val before less =>
      exact h.quiet (by rw [before]; exact ⟨rfl, rfl, rfl, rfl, rfl⟩)
  | leaveMin _ val before least => exact h.leaveMin before least
  | exchangeMin _ val less before => exact h.exchangeMin before
  | retryMin _ val minCount less before stale =>
      exact h.quiet (by rw [before]; exact ⟨rfl, rfl, rfl, rfl, rfl⟩)
  | loadMax _ val before greater =>
      exact h.quiet (by rw [before]; exact ⟨rfl, rfl, rfl, rfl, rfl⟩)
  | leaveMax _ val before greatest => exact h.leaveMax before greatest
  | exchangeMax _ val greater before => exact h.exchangeMax before
  | retryMax _ val maxCount greater before stale =>
      exact h.quiet (by rw [before]; exact ⟨rfl, rfl, rfl, rfl, rfl⟩)
  | addBucket _ val before => exact h.addBucket before

end Accounted

theorem accounted_exec {tr : History (State Tid) (Action Tid)} {s : State Tid}
    (run : (system Tid).Exec tr s) : Accounted (begun tr) s := by
  refine Exec.historyInvariant (fun tr s => Accounted (begun tr) s) ?_ ?_ run
  · rintro s rfl
    exact .initial
  · intro tr s a s' run h step
    rw [begun, observed_cons]
    cases a with
    | next i => exact h.step (step_cases step)
    | update i val => exact h.step (step_cases step)

namespace Accounted

variable {vals : List UInt32} {s : State Tid}

omit [DecidableEq Tid] in
theorem count_eq (h : Accounted vals s) (returned : ∀ i, s.pc i = .idle) :
    s.counter.count.toNat = vals.length % 2 ^ 64 :=
  h.count.settled (fun i => by rw [returned i]; rfl) s.counter.count.toNat_lt

omit [DecidableEq Tid] in
theorem bucket_eq (h : Accounted vals s) (returned : ∀ i, s.pc i = .idle)
    (b : Fin 32) : (s.counter.bucket b).toNat =
      (vals.countP fun val => Belongs b val) % 2 ^ 32 :=
  (h.bucket b).settled (fun i => by rw [returned i]; rfl)
    (s.counter.bucket b).toNat_lt

end Accounted

structure Summarises (counter : PerfCounter) (vals : List UInt32) : Prop where
  val : counter.val.toNat = sum vals % 2 ^ 64
  count : counter.count.toNat = vals.length % 2 ^ 64
  min : counter.min ∈ offered vals ∧ ∀ v ∈ offered vals, counter.min ≤ v
  max : counter.max ∈ offered vals ∧ ∀ v ∈ offered vals, v ≤ counter.max
  bucket : ∀ b, (counter.bucket b).toNat =
    (vals.countP fun val => Belongs b val) % 2 ^ 32

/--
Whatever the order of their steps, once all calls of `Update` that were begun
have returned, and there was at least one, the counter summarises their values.
-/
theorem update_summarises {tr : History (State Tid) (Action Tid)}
    {s : State Tid} (run : (system Tid).Exec tr s)
    (returned : ∀ i, s.pc i = .idle) (nonempty : begun tr ≠ []) :
    Summarises s.counter (begun tr) := by
  have h := accounted_exec run
  have hoffered : offered (begun tr) ≠ [] := by simpa [offered] using nonempty
  constructor
  · exact h.val.settled (fun i => by rw [returned i]; rfl)
      s.counter.val.toNat_lt
  · exact h.count_eq returned
  · refine h.min.settled (fun i => by rw [returned i]; rfl) hoffered ?_
      UInt64.le_antisymm
    intro v hv
    obtain ⟨val, -, rfl⟩ := List.mem_map.mp hv
    have hlt := val.toNat_lt
    rw [UInt64.le_iff_toNat_le, UInt32.toNat_toUInt64]
    change val.toNat ≤ 2 ^ 32 - 1
    omega
  · refine h.max.settled (fun i => by rw [returned i]; rfl) hoffered ?_
      (fun hab hba => UInt64.le_antisymm hba hab)
    exact fun v _ => UInt64.zero_le
  · exact h.bucket_eq returned

theorem contended_update_summarises :
    ∃ tr s, (system (Fin 2)).Exec tr s ∧
      (begun tr = [3000, 5] ∧ s.counter.min = 5 ∧ s.counter.max = 3000 ∧
        s.counter.bucket 11 = 1) ∧ Summarises s.counter (begun tr) := by
  obtain ⟨tr, s, run, htest⟩ : ∃ tr s, (system (Fin 2)).Exec tr s ∧
      decide ((∀ i, s.pc i = .idle) ∧ begun tr = [3000, 5] ∧
        s.counter.min = 5 ∧ s.counter.max = 3000 ∧
        s.counter.bucket 11 = 1) = true :=
    Exec.ofRecord exec (initial (Fin 2))
      [.update 0 5, .update 1 3000, .next 0, .next 1, .next 0, .next 1,
        .next 0, .next 1, .next 0, .next 1, .next 0, .next 1, .next 0, .next 1,
        .next 0, .next 1, .next 0, .next 1, .next 0, .next 1, .next 1,
        .next 1]
      (fun r => decide ((∀ i, r.2.pc i = .idle) ∧ begun r.1 = [3000, 5] ∧
        r.2.counter.min = 5 ∧ r.2.counter.max = 3000 ∧
        r.2.counter.bucket 11 = 1)) rfl (by decide)
  obtain ⟨hidle, hbegun, hfields⟩ := of_decide_eq_true htest
  have hnonempty : begun tr ≠ [] := by simp [hbegun]
  exact ⟨tr, s, run, ⟨hbegun, hfields⟩, update_summarises run hidle hnonempty⟩

end Iocore.PerfCounter
