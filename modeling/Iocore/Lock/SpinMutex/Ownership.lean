import Iocore.Lock.SpinMutex.Model

/-!
# Ownership of the spin mutex

The lock word admits one thread at a time whatever `owner_` holds, and from
the end of its `TryLock` until the store in its `Unlock` the owner's identity
is in `owner_`.  What `owner_` holds in between is another matter: after the
first release it is zero, but until the first acquisition has stored the
owner's identity it is what the constructor left there.
-/

namespace Iocore.SpinMutex

open Foundation Foundation.System

variable {Tid : Type} [DecidableEq Tid] (build : Build) (ids : ThreadIds Tid)

structure LocalOwned (owner me : PthreadT) (pc : Pc) (won : Bool) : Prop where
  region : pc.inRegion = true → won = true
  signed : won = true → pc.settled = true → owner = me
  cleared : pc = .unlockCas → owner = 0

theorem LocalOwned.of_not_won {owner me : PthreadT} {pc : Pc} {won : Bool}
    (h : LocalOwned owner me pc won) (hwon : ¬ won = true)
    (owner' : PthreadT) : LocalOwned owner' me pc won where
  region := h.region
  signed hw := absurd hw hwon
  cleared hpc := absurd (h.region (by rw [hpc]; rfl)) hwon

/-- The lock word knows the winner, and `owner_` follows it. -/
structure Owned (s : State Tid) : Prop where
  guarded : ∃ holder, Token (fun w : Bool => w = true) s.won holder ∧
    s.mutex = if holder.isSome then CLOSED else OPEN
  threads : ∀ i, LocalOwned s.owner (ids.self i) (s.pc i) (s.won i)

namespace Owned

variable {ids} {s : State Tid}

omit [DecidableEq Tid]

theorem unique (h : Owned ids s) : AtMostOne (fun w : Bool => w = true) s.won := by
  obtain ⟨holder, token, -⟩ := h.guarded
  exact token.atMostOne

theorem closed_iff (h : Owned ids s) :
    s.mutex = CLOSED ↔ ∃ i, s.won i = true := by
  obtain ⟨holder, token, hword⟩ := h.guarded
  cases holder with
  | none =>
      have hnobody := token.not_of_none
      simpa [hword, open_ne_closed] using hnobody
  | some i =>
      have hwon : s.won i = true := (token i).mpr rfl
      simpa [hword] using ⟨i, hwon⟩

theorem open_iff (h : Owned ids s) :
    s.mutex = OPEN ↔ ¬ ∃ i, s.won i = true := by
  obtain ⟨holder, token, hword⟩ := h.guarded
  rw [← h.closed_iff]
  cases holder <;> simp [hword, open_ne_closed, Ne.symm open_ne_closed]

end Owned

theorem owned_inductive (owner : PthreadT) :
    (system build ids owner).Inductive (Owned ids) where
  init := by
    rintro s rfl
    exact ⟨⟨none, Token.none_of fun _ => nofun, rfl⟩,
      fun _ => ⟨nofun, nofun, nofun⟩⟩
  step := by
    rintro s a s' h hstep
    obtain ⟨holder, token, hword⟩ := h.guarded
    have hothers : ∀ {j}, s.won a.tid = true → j ≠ a.tid → ¬ s.won j = true :=
      fun hmine hj hwon => hj (h.unique _ _ hwon hmine)
    cases step_cases build ids hstep with
    | move pc pcs mutex owner won region settled reads noCas =>
        have hmine := h.threads a.tid
        refine ⟨⟨holder, by rwa [won], by rw [mutex, hword]⟩, ?_⟩
        rw [pcs, owner, won]
        refine forall_update
          (fun j pc => LocalOwned s.owner (ids.self j) pc (s.won j))
          ⟨?_, ?_, ?_⟩ fun j _ => h.threads j
        · exact fun hpc => (region hpc).elim id hmine.region
        · exact fun hwon hpc => hmine.signed hwon (settled hpc)
        · exact fun hpc => absurd hpc noCas
    | win pc pcs mutex owner won opened settled noRead noCas =>
        have hnobody : ∀ j, ¬ s.won j = true := fun j hj =>
          h.open_iff.mp opened ⟨j, hj⟩
        refine ⟨⟨some a.tid, ?_, by rw [mutex]; rfl⟩, ?_⟩
        · rw [won]
          exact (Token.none_of hnobody).acquire rfl
        · rw [pcs, owner, won]
          exact forall_update₂
            (fun j pc won => LocalOwned s.owner (ids.self j) pc won)
            ⟨fun _ => rfl, by simp [settled], fun hpc => absurd hpc noCas⟩
            fun j _ => h.threads j
    | sign result pcs mutex owner won before =>
        have hmine := (h.threads a.tid).region before
        refine ⟨⟨holder, by rwa [won], by rw [mutex, hword]⟩, ?_⟩
        rw [pcs, owner, won]
        exact forall_update
          (fun j pc => LocalOwned (ids.self a.tid) (ids.self j) pc (s.won j))
          ⟨nofun, fun _ _ => rfl, nofun⟩
          fun j hj => (h.threads j).of_not_won (hothers hmine hj) _
    | clear pcs mutex owner won before =>
        have hmine := (h.threads a.tid).region before
        refine ⟨⟨holder, by rwa [won], by rw [mutex, hword]⟩, ?_⟩
        rw [pcs, owner, won]
        exact forall_update
          (fun j pc => LocalOwned 0 (ids.self j) pc (s.won j))
          ⟨fun _ => hmine, nofun, fun _ => rfl⟩
          fun j hj => (h.threads j).of_not_won (hothers hmine hj) _
    | release pcs mutex owner won before closed =>
        have hmine := (h.threads a.tid).region (by rw [before]; rfl)
        obtain rfl := token.owner_eq hmine
        refine ⟨⟨none, ?_, by rw [mutex]; rfl⟩, ?_⟩
        · rw [won]
          exact token.release nofun
        · rw [pcs, owner, won]
          exact forall_update₂
            (fun j pc won => LocalOwned s.owner (ids.self j) pc won)
            ⟨nofun, nofun, nofun⟩ fun j _ => h.threads j
    | lost before opened =>
        have hmine := (h.threads a.tid).region (by rw [before]; rfl)
        exact absurd (h.closed_iff.mpr ⟨_, hmine⟩) opened

/-- Only the check at the start of `Lock` can fail. -/
theorem aborts_only_lockRead {s : State Tid} (h : Owned ids s) {i : Tid}
    (habort : exec build ids s (.next i) = .error .aborted) :
    s.pc i = .lockRead := by
  have hclosed : (s.pc i).inRegion = true → s.mutex = CLOSED := fun hregion =>
    h.closed_iff.mpr ⟨i, (h.threads i).region hregion⟩
  change advance build ids s i = .error .aborted at habort
  unfold advance at habort
  cases hpc : s.pc i with
  | lockRead => rfl
  | idle | is | isOwnerClosed | isOwnerRead | lockOpen | lockClosed
  | tryOwner | unlockOwner =>
      simp only [hpc] at habort
      try split at habort
      all_goals cases habort
  | tryCas spin =>
      simp only [hpc] at habort
      by_cases hopen : s.mutex = OPEN
      · simp only [hopen, syncBoolCompareAndSwap_self, if_true] at habort
        cases habort
      · simp only [syncBoolCompareAndSwap_ne hopen] at habort
        cases spin <;> cases habort
  | tryAssert spin =>
      have his : s.is CLOSED = true :=
        State.is_eq_true.mpr (hclosed (by rw [hpc]; rfl))
      simp only [hpc, his, Build.assert_true, Code.ok_bind] at habort
      cases habort
  | unlockClosed =>
      have his : s.is CLOSED = true :=
        State.is_eq_true.mpr (hclosed (by rw [hpc]; rfl))
      simp only [hpc, his, if_true] at habort
      cases habort
  | unlockRead =>
      have howner : s.owner = ids.self i :=
        (h.threads i).signed ((h.threads i).region (by rw [hpc]; rfl))
          (by rw [hpc]; rfl)
      simp only [hpc, howner, decide_true, Build.assert_true,
        Code.ok_bind] at habort
      cases habort
  | unlockCas =>
      have hword := hclosed (by rw [hpc]; rfl)
      simp only [hpc, hword, syncBoolCompareAndSwap_self, Build.assert_true,
        Code.ok_bind] at habort
      cases habort

theorem unlockCas_releases {s : State Tid} (h : Owned ids s) {i : Tid}
    (hpc : s.pc i = .unlockCas) :
    ∃ s', exec build ids s (.next i) = .ok s' ∧ s'.mutex = OPEN ∧
      s'.won i = false := by
  have hword : s.mutex = CLOSED :=
    h.closed_iff.mpr ⟨i, (h.threads i).region (by rw [hpc]; rfl)⟩
  have hstep : exec build ids s (.next i) = .ok ({ s with
      mutex := OPEN
      won := Function.update s.won i (s.won i && !true) }.goto i
        (.idle none)) := by
    change advance build ids s i = _
    simp only [advance, hpc, hword, syncBoolCompareAndSwap_self,
      Build.assert_true, Code.ok_bind]
    rfl
  exact ⟨_, hstep, rfl, by simp [State.goto]⟩

structure HandedOver (s : State Tid) : Prop where
  exclusive : AtMostOne (fun w : Bool => w = true) s.won
  closed : s.mutex = CLOSED ↔ ∃ i, s.won i = true
  opened : s.mutex = OPEN ↔ ¬ ∃ i, s.won i = true
  owner : ∀ i, s.won i = true → (s.pc i).settled = true → s.owner = ids.self i
  asserts : ∀ i, exec build ids s (.next i) = .error .aborted →
    s.pc i = .lockRead
  releases : ∀ i, s.pc i = .unlockCas → ∃ s',
    exec build ids s (.next i) = .ok s' ∧ s'.mutex = OPEN ∧ s'.won i = false

theorem spinMutex_handedOver (owner : PthreadT) {s : State Tid}
    (run : (system build ids owner).Reachable s) : HandedOver build ids s := by
  have h := (owned_inductive build ids owner).reachable run
  constructor
  · exact h.unique
  · exact h.closed_iff
  · exact h.open_iff
  · exact fun i => (h.threads i).signed
  · exact fun i => aborts_only_lockRead build ids h
  · exact fun i => unlockCas_releases build ids h

def twoThreads : ThreadIds (Fin 2) where
  self i := if i = 0 then 1 else 2
  injective := by
    unfold Function.Injective
    decide
  nonzero := by decide

theorem contended_handedOver :
    ∃ tr s, (system ⟨true, false⟩ twoThreads 2).Exec tr s ∧
      (.call 0 .unlock ∈ tr.map Prod.snd ∧ s.won 0 = false ∧
        s.pc 0 = .idle none ∧ s.won 1 = true ∧ s.pc 1 = .idle none) ∧
      HandedOver ⟨true, false⟩ twoThreads s := by
  obtain ⟨tr, s, run, htest⟩ : ∃ tr s,
      (system ⟨true, false⟩ twoThreads 2).Exec tr s ∧ _ :=
    Exec.ofRecord (exec ⟨true, false⟩ twoThreads) (initial (Fin 2) 2)
      [.call 1 .lock, .next 1, .call 0 .tryLock, .next 0, .next 0, .next 0,
        .next 1, .call 0 .unlock, .next 0, .next 0, .next 0, .next 1, .next 0,
        .next 1, .next 1, .next 1]
      (fun r => decide (.call 0 .unlock ∈ r.1.map Prod.snd ∧
        r.2.won 0 = false ∧ r.2.pc 0 = .idle none ∧ r.2.won 1 = true ∧
        r.2.pc 1 = .idle none)) rfl (by decide)
  exact ⟨tr, s, run, of_decide_eq_true htest,
    spinMutex_handedOver ⟨true, false⟩ twoThreads 2 run.reachable⟩

/-! ## Mistaking another thread for the owner -/

def lastCall (i : Tid) : History (State Tid) (Action Tid) → Option Call
  | [] => none
  | (_, .call j c) :: tr => if j = i then some c else lastCall i tr
  | (_, .next _) :: tr => lastCall i tr

/--
A call of `IsOwner` returns `true`, and the check at the start of `Lock` aborts,
only for a thread that has won the mutex and not released it.
-/
structure NeverMistaken (tr : History (State Tid) (Action Tid))
    (s : State Tid) : Prop where
  isOwner : ∀ a s', exec build ids s a = .ok s' →
    lastCall a.tid ((s, a) :: tr) = some .isOwner →
    s'.pc a.tid = .idle (some true) → s.won a.tid = true
  lock : ∀ i, exec build ids s (.next i) = .error .aborted → s.won i = true

def Pc.inIsOwner : Pc → Bool
  | .isOwnerClosed | .isOwnerRead => true
  | _ => false

theorem advance_isOwner {s s' : State Tid} {i : Tid}
    (h : advance build ids s i = .ok s') (hpc : (s.pc i).inIsOwner = true) :
    (s'.pc i).inIsOwner = true ∨ s'.pc i = .idle (some false) ∨
      s'.pc i = .idle (some true) ∧ (s.pc i).readsOwner = true ∧
        s.owner = ids.self i := by
  unfold advance at h
  cases hcode : s.pc i with
  | isOwnerClosed =>
      simp only [hcode] at h
      split at h
      · cases h
        exact .inl (by rw [State.goto_pc_self]; rfl)
      · cases h
        exact .inr (.inl (State.goto_pc_self ..))
  | isOwnerRead =>
      simp only [hcode] at h
      cases h
      by_cases howner : s.owner = ids.self i
      · exact .inr (.inr ⟨by simp [howner], rfl, howner⟩)
      · exact .inr (.inl (by simp [howner]))
  | _ =>
      rw [hcode] at hpc
      cases hpc

theorem others_stay {s s' : State Tid} (howned : Owned ids s)
    {a : Action Tid} (h : exec build ids s a = .ok s') {j : Tid}
    (hj : j ≠ a.tid) : s'.pc j = s.pc j ∧ s'.won j = s.won j := by
  have hstep : (system build ids 0).step s a s' := h
  cases step_cases build ids hstep with
  | move pc pcs mutex owner won | sign result pcs mutex owner won
  | clear pcs mutex owner won =>
      rw [pcs, won]
      exact ⟨Function.update_of_ne hj _ _, rfl⟩
  | win pc pcs mutex owner won | release pcs mutex owner won =>
      rw [pcs, won]
      exact ⟨Function.update_of_ne hj _ _, Function.update_of_ne hj _ _⟩
  | lost before opened =>
      have hmine := (howned.threads a.tid).region (by rw [before]; rfl)
      exact absurd (howned.closed_iff.mpr ⟨_, hmine⟩) opened

theorem lastCall_isOwner {first : PthreadT}
    {tr : History (State Tid) (Action Tid)} {s : State Tid}
    (run : (system build ids first).Exec tr s) {i : Tid}
    (h : lastCall i tr = some .isOwner) :
    (∃ result, s.pc i = .idle result) ∨ (s.pc i).inIsOwner = true := by
  induction run with
  | start init => cases h
  | @next tr s s' a run step ih =>
      have howned := (owned_inductive build ids first).exec run
      cases a with
      | call j c =>
          by_cases hj : j = i
          · subst hj
            obtain rfl : c = .isOwner := by
              simpa [lastCall] using h
            change exec build ids s (.call j .isOwner) = .ok s' at step
            cases hpc : s.pc j <;> simp only [exec, hpc] at step <;>
              try cases step
            exact .inr (by rw [State.goto_pc_self]; rfl)
          · rw [lastCall, if_neg hj] at h
            rw [(others_stay build ids howned step (Ne.symm hj)).1]
            exact ih h
      | next j =>
          by_cases hj : j = i
          · subst hj
            rcases ih h with ⟨result, hpc⟩ | hpc
            · change advance build ids s j = .ok s' at step
              simp [advance, hpc] at step
            · rcases advance_isOwner build ids step hpc with h | h | ⟨h, -⟩
              · exact .inr h
              · exact .inl ⟨_, h⟩
              · exact .inl ⟨_, h⟩
          · rw [(others_stay build ids howned step (Ne.symm hj)).1]
            exact ih h

/--
A thread that reads `owner_` has seen the mutex closed, by another thread
unless by itself; and its own identity is there by its own doing or from the
start.
-/
structure LocalExplained (first owner : PthreadT) (i : Tid) (pc : Pc)
    (won : Bool) : Prop where
  reader : pc.readsOwner = true → won = true ∨ ∃ j, j ≠ i
  stale : owner = ids.self i → won = true ∨ first = ids.self i

def Explained (first : PthreadT) (s : State Tid) : Prop :=
  ∀ i, LocalExplained ids first s.owner i (s.pc i) (s.won i)

theorem explained_reachable {first : PthreadT} {s : State Tid}
    (run : (system build ids first).Reachable s) : Explained ids first s := by
  refine Reachable.invariant ?_ ?_ run
  · rintro s rfl i
    exact ⟨nofun, fun h => .inr h⟩
  · intro s a s' run h hstep
    have howned := (owned_inductive build ids first).reachable run
    cases step_cases build ids hstep with
    | move pc pcs mutex owner won region settled reads noCas =>
        rw [Explained, pcs, owner, won]
        refine forall_update
          (fun j pc => LocalExplained ids first s.owner j pc (s.won j))
          ⟨fun hreads => ?_, (h a.tid).stale⟩ fun j _ => h j
        obtain ⟨k, hk⟩ := howned.closed_iff.mp (reads hreads)
        by_cases hka : k = a.tid
        · exact .inl (hka ▸ hk)
        · exact .inr ⟨k, hka⟩
    | win pc pcs mutex owner won opened settled noRead noCas =>
        rw [Explained, pcs, owner, won]
        exact forall_update₂
          (fun j pc won => LocalExplained ids first s.owner j pc won)
          ⟨fun _ => .inl rfl, fun _ => .inl rfl⟩ fun j _ => h j
    | sign result pcs mutex owner won before =>
        have hmine := (howned.threads a.tid).region before
        rw [Explained, pcs, owner, won]
        refine forall_update
          (fun j pc => LocalExplained ids first (ids.self a.tid) j pc
            (s.won j))
          ⟨nofun, fun _ => .inl hmine⟩ fun j hj => ⟨(h j).reader, ?_⟩
        exact fun heq => absurd (ids.injective heq).symm hj
    | clear pcs mutex owner won before =>
        rw [Explained, pcs, owner, won]
        exact forall_update
          (fun j pc => LocalExplained ids first 0 j pc (s.won j))
          ⟨nofun, fun heq => absurd heq.symm (ids.nonzero _)⟩
          fun j _ => ⟨(h j).reader, fun heq =>
            absurd heq.symm (ids.nonzero j)⟩
    | release pcs mutex owner won before closed =>
        have hzero := (howned.threads a.tid).cleared before
        rw [Explained, pcs, owner, won]
        exact forall_update₂
          (fun j pc won => LocalExplained ids first s.owner j pc won)
          ⟨nofun, fun heq =>
            absurd (heq.symm.trans hzero) (ids.nonzero _)⟩ fun j _ => h j
    | lost before opened =>
        have hmine := (howned.threads a.tid).region (by rw [before]; rfl)
        exact absurd (howned.closed_iff.mpr ⟨_, hmine⟩) opened

omit [DecidableEq Tid] in
theorem won_of_owner {first : PthreadT}
    (hfirst : ∀ i, first = ids.self i → ∀ j, j = i) {s : State Tid} {i : Tid}
    (h : LocalExplained ids first s.owner i (s.pc i) (s.won i))
    (hreads : (s.pc i).readsOwner = true) (howner : s.owner = ids.self i) :
    s.won i = true := by
  rcases h.stale howner with hwon | hstale
  · exact hwon
  · rcases h.reader hreads with hwon | ⟨j, hj⟩
    · exact hwon
    · exact absurd (hfirst i hstale j) hj

private theorem won_before_signing (first : PthreadT) {i j : Tid}
    (hij : j ≠ i) :
    ∃ s, (system build ids first).Reachable s ∧ s.mutex = CLOSED ∧
      s.owner = first ∧ s.won i = false ∧ s.pc i = .idle none := by
  let called := (initial Tid first).goto j (.tryCas false)
  have hcall : exec build ids (initial Tid first) (.call j .tryLock) =
      .ok called := rfl
  have hcas : exec build ids called (.next j) =
      .ok ({ called with
        mutex := CLOSED
        won := Function.update called.won j true }.goto j
          (if build.debugBuild then .tryAssert false else .tryOwner false)) := by
    have hpc : called.pc j = .tryCas false := State.goto_pc_self ..
    have hopen : called.mutex = OPEN := rfl
    change advance build ids called j = _
    simp only [advance, hpc, hopen, syncBoolCompareAndSwap_self, if_true]
  have run := ((Reachable.start (S := system build ids first) rfl).next
    hcall).next hcas
  exact ⟨_, run, rfl, rfl, by simp [State.goto, called, initial, hij.symm],
    by simp [State.goto, called, initial, hij.symm]⟩

/-- Another thread wins, and the one whose identity is stale calls `Lock`. -/
theorem stale_lock_aborts {first : PthreadT} {i j : Tid} (hij : j ≠ i)
    (hfirst : first = ids.self i) :
    ∃ s, (system build ids first).Reachable s ∧ s.won i = false ∧
      exec build ids s (.next i) = .error .aborted := by
  obtain ⟨s, run, hmutex, howner, hwon, hpc⟩ :=
    won_before_signing build ids first hij
  have hopen : s.is OPEN = false := by
    rw [← Bool.not_eq_true, State.is_eq_true, hmutex]
    decide
  have hclosed : s.is CLOSED = true := State.is_eq_true.mpr hmutex
  have hcall : exec build ids s (.call i .lock) = .ok (s.goto i .lockOpen) := by
    simp [exec, hpc, Call.entry]
  have hlockOpen : exec build ids (s.goto i .lockOpen) (.next i) =
      .ok ((s.goto i .lockOpen).goto i .lockClosed) := by
    simp [exec, advance, hopen]
  have hlockClosed : exec build ids ((s.goto i .lockOpen).goto i .lockClosed)
      (.next i) = .ok (((s.goto i .lockOpen).goto i .lockClosed).goto i
        .lockRead) := by
    simp [exec, advance, hclosed]
  refine ⟨_, ((run.next hcall).next hlockOpen).next hlockClosed, hwon, ?_⟩
  simp [exec, advance, invariant, howner, hfirst]

/--
`SpinMutex` never takes a thread for the owner that is not, precisely when the
value the constructor left in `owner_` is not the identity of a thread that
shares the mutex with another.
-/
theorem neverMistaken_iff (first : PthreadT) :
    (∀ tr s, (system build ids first).Exec tr s →
      NeverMistaken build ids tr s) ↔
      ∀ i, first = ids.self i → ∀ j, j = i := by
  constructor
  · intro h i hfirst j
    by_contra hij
    obtain ⟨s, ⟨tr, run⟩, hwon, habort⟩ :=
      stale_lock_aborts build ids hij hfirst
    have hmine := (h tr s run).lock i habort
    simp [hwon] at hmine
  · intro hfirst tr s run
    have hexplained := explained_reachable build ids run.reachable
    have howned := (owned_inductive build ids first).exec run
    constructor
    · intro a s' hstep hcall htrue
      have hnot : (s'.pc a.tid).inIsOwner ≠ true := by
        rw [htrue]
        nofun
      cases a with
      | call i c =>
          obtain rfl : c = .isOwner := by
            simpa [lastCall, Action.tid] using hcall
          cases hpc : s.pc i <;> simp only [exec, hpc] at hstep <;>
            try cases hstep
          simp [Action.tid, Call.entry] at htrue
      | next i =>
          rcases lastCall_isOwner build ids run hcall with ⟨result, hpc⟩ | hpc
          · simp only [exec, advance] at hstep
            rw [show s.pc i = .idle result from hpc] at hstep
            cases hstep
          · rcases advance_isOwner build ids hstep hpc with
              h | h | ⟨-, hreads, howner⟩
            · exact absurd h hnot
            · rw [show s'.pc i = .idle (some true) from htrue] at h
              cases h
            · exact won_of_owner ids hfirst (hexplained i) hreads howner
    · intro i habort
      have hpc := aborts_only_lockRead build ids howned habort
      have howner : s.owner = ids.self i := by
        change advance build ids s i = .error .aborted at habort
        by_contra hne
        simp [advance, hpc, invariant, hne] at habort
      exact won_of_owner ids hfirst (hexplained i) (by rw [hpc]; rfl) howner

theorem not_neverMistaken :
    ¬ ∀ tr s, (system defaultBuild twoThreads 1).Exec tr s →
      NeverMistaken defaultBuild twoThreads tr s := by
  intro h
  obtain ⟨s, ⟨tr, run⟩, hwon, habort⟩ :=
    stale_lock_aborts defaultBuild twoThreads (i := 0) (j := 1) (by decide) rfl
  have hmine := (h tr s run).lock 0 habort
  simp [hwon] at hmine

end Iocore.SpinMutex
