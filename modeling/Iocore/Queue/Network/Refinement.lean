import Iocore.Queue.Network.Model

/-!
# Queues that share their elements do not disturb each other

As long as every thread pushes only what belongs to it, each element is in one
place at a time: it belongs to a thread, or a call carries it, or one queue
holds it.  So an element that is about to be pushed is in no list, its links
are `NULL`, and each of the queues does what it would do over a plain list of
its own.
-/

namespace Iocore.Queue

open Foundation Foundation.System InList

variable {Q Tid T : Type} [Fintype Q] [DecidableEq Q] [DecidableEq Tid]
  [Fintype Tid] [DecidableEq T] (build : Build)

/-! ## One list among others -/

def Shares (lists : Q → InList T) (seqs : Q → List T) (q : Q)
    (x : Heap T × InList T) (xs : List T) : Prop :=
  Represents ⟨x.1, Function.update lists q x.2⟩
    (Function.update seqs q xs.reverse)

def Fresh (lists : Q → InList T) (q : Q) (x : Heap T × InList T) (t : T) :
    Prop :=
  (⟨x.1, Function.update lists q x.2⟩ : Family Q T).Allowed (.push q t)

omit [Fintype Q] in
theorem inQueue_serves (lists : Q → InList T) (seqs : Q → List T) (q : Q) :
    (inQueue build T).container.Serves (Fresh lists q) (Shares lists seqs q)
    where
  isEmpty := by
    intro x xs h
    have hempty := (h.holds q).isEmpty_eq
    simp only [Function.update_self, List.isEmpty_reverse] at hempty
    exact hempty
  push := by
    intro x xs t h hfresh
    obtain ⟨s', hcall, hrep⟩ := h.call build hfresh
    simp only [Family.call, Function.update_self, Code.bind_eq_ok] at hcall
    obtain ⟨⟨heap, list⟩, hpush, hcall⟩ := hcall
    cases hcall
    refine ⟨(heap, list), hpush, ?_⟩
    simpa [Shares, callSequences] using hrep
  pop := by
    intro x xs t h
    have hallowed : (⟨x.1, Function.update lists q x.2⟩ : Family Q T).Allowed
        (.pop q) := by
      have hempty := (h.holds q).isEmpty_eq
      simp only [Function.update_self, List.isEmpty_reverse] at hempty
      simpa [Family.Allowed] using hempty
    obtain ⟨s', hcall, hrep⟩ := h.call build hallowed
    simp only [Family.call, Function.update_self, Code.bind_eq_ok] at hcall
    obtain ⟨⟨t', heap, list⟩, hpop, hcall⟩ := hcall
    simp only [callSequences, Function.update_self, List.reverse_cons,
      List.getLast?_concat, List.dropLast_concat, Function.update_idem]
      at hcall hrep
    cases hcall
    exact ⟨(heap, list), hpop, hrep⟩

/-! ## The requests for cancellation -/

def pendingAfter (pending : Tid → Bool) : Action Tid T → Tid → Bool
  | .cancel i => Function.update pending i true
  | _ => pending

omit [Fintype Tid] [DecidableEq T] in
theorem advance_pending {S : Type} {v : Variant S T} {s s' : State Tid S T}
    {i : Tid} (h : advance build v s i = .ok s') : s'.pending = s.pending := by
  unfold advance at h
  cases hcode : code v.maxSpin (s.pc i) with
  | none | sleep woken expired unwinding | signal next => simp [hcode] at h
  | yield next | isEmpty next =>
      simp only [hcode] at h
      cases h
      rfl
  | lock next | lockFor ms next expired | unlock next | wait next | push t next =>
      simp only [hcode, Code.bind_eq_ok] at h
      obtain ⟨result, -, h⟩ := h
      cases h
      rfl
  | pop empty popped =>
      simp only [hcode] at h
      split at h
      · cases h
        rfl
      · simp only [Code.bind_eq_ok] at h
        obtain ⟨result, -, h⟩ := h
        cases h
        rfl

omit [Fintype Tid] [DecidableEq T] in
theorem expire_pending {S : Type} {v : Variant S T} {s s' : State Tid S T}
    {i : Tid} (h : expire build v s i = .ok s') : s'.pending = s.pending := by
  unfold expire at h
  split at h
  · simp only [Code.bind_eq_ok] at h
    obtain ⟨result, -, h⟩ := h
    cases h
    rfl
  · cases h
    rfl
  · cases h

omit [DecidableEq T] in
theorem exec_pending {S : Type} {v : Variant S T} {s s' : State Tid S T}
    {a : Action Tid T} (h : exec build v s a = .ok s') :
    s'.pending = pendingAfter s.pending a := by
  cases a with
  | next i => exact advance_pending build h
  | expire i => exact expire_pending build h
  | cancel i =>
      cases h
      rfl
  | call i c | wake i =>
      simp only [exec] at h
      split at h
      · cases h
        rfl
      · cases h
  | signal i woken | cancelAct i =>
      simp only [exec] at h
      split at h
      · split at h
        · cases h
          rfl
        · cases h
      · cases h

/-! ## Every element is in one place -/

/-- The queues hold `seqs`, newest first, and what had an owner is somewhere. -/
structure Coherent (owner : T → Option Tid) (s : Owned Q Tid T)
    (seqs : Q → List T) : Prop where
  represents : Represents ⟨s.network.heap, s.network.lists⟩ seqs
  locked : ∀ q, Locked (s.network.queue q)
  places : ∀ t, s.places seqs t = (owner t).isSome.toNat

omit [DecidableEq Tid] [Fintype Tid] in
theorem ownerAfter_balance {S : Type} {owner : T → Option Tid}
    {s s' : State Tid S T} {a : Action Tid T} {t : T}
    (owned : ∀ i, a = .call i (.push t) → (owner t).isSome = true)
    (free : handedBack t s.pc s'.pc a ≠ 0 → owner t = none) :
    (ownerAfter owner s s' a t).isSome.toNat + entrusted t a =
      (owner t).isSome.toNat + handedBack t s.pc s'.pc a := by
  cases a with
  | call i c =>
      cases c with
      | push t' =>
          by_cases ht : t' = t
          · subst ht
            simp [ownerAfter, entrusted, handedBack, Call.element, once,
              owned i rfl]
          · simp [ownerAfter, entrusted, handedBack, Call.element, once, ht,
              Function.update_of_ne (Ne.symm ht)]
      | _ => rfl
  | next i | expire i =>
      simp only [ownerAfter, entrusted, handedBack] at free ⊢
      cases hreturns : returns (s.pc i) (s'.pc i) with
      | none => rfl
      | some t' =>
          by_cases ht : t' = t
          · subst ht
            have hfree := free (by simp [hreturns, once])
            simp [once, hfree]
          · simp [once, ht, Function.update_of_ne (Ne.symm ht)]
  | _ => rfl

omit [DecidableEq Tid] [Fintype Tid] [DecidableEq T] in
theorem Flow.carried_of_returns {S : Type} {v : Variant S T}
    {s s' : State Tid S T} {a : Action Tid T} {j : Tid} {t : T}
    (h : Flow v s s' a j) (returned : returns (s.pc j) (s'.pc j) = some t) :
    (s.pc j).carried = some t := by
  obtain ⟨hrunning, hresult⟩ : (s.pc j).isIdle = false ∧
      (s'.pc j).returned = some t := by
    unfold returns at returned
    split at returned
    · cases returned
    · exact ⟨by simpa using ‹¬ (s.pc j).isIdle = true›, returned⟩
  rcases h.leads with stays | ⟨c, result, idle, -⟩ | leads | ⟨-, -, leaves⟩
  · rw [stays, returned_of_not_idle hrunning] at hresult
    cases hresult
  · rw [idle] at hrunning
    cases hrunning
  · generalize s.pc j = pc at leads ⊢
    generalize s'.pc j = next at leads hresult
    cases leads_cases leads with
    | spinPopped kind t' | popped kind t' => exact hresult
    | _ => cases hresult
  · rw [leaves] at hresult
    cases hresult

theorem network_step {owner : T → Option Tid} {s s' : Owned Q Tid T} {q : Q}
    {a : Action Tid T} (h : (network build owner).step s (q, a) s') :
    ∃ s₁, exec build (inQueue build T) (s.network.queue q) a = .ok s₁ ∧
      s'.network = s.network.put q s₁ ∧
      s'.owner = ownerAfter s.owner (s.network.queue q) s₁ a := by
  obtain ⟨network', hexec, howned⟩ := Code.bind_eq_ok.mp h
  obtain rfl := Except.ok.inj howned
  unfold Network.exec at hexec
  split at hexec
  · obtain ⟨s₁, hqueue, hput⟩ := Code.bind_eq_ok.mp hexec
    obtain rfl := Except.ok.inj hput
    exact ⟨s₁, hqueue, rfl, by simp⟩
  · cases hexec

namespace Coherent

variable {owner : T → Option Tid} {s : Owned Q Tid T} {seqs : Q → List T}

omit [DecidableEq Q] [DecidableEq Tid] in
theorem of_carried (h : Coherent owner s seqs) {q : Q} {i : Tid} {t : T}
    (carried : (s.network.pcs q i).carried = some t) :
    s.owner t = none ∧ ∀ q', t ∉ seqs q' := by
  have hplaces := h.places t
  rw [Owned.places] at hplaces
  have hmost : (owner t).isSome.toNat ≤ 1 := Bool.toNat_le _
  have hone : carries t (s.network.pcs q i) = 1 := by simp [carries, once, carried]
  have hcall := le_total (carries t) (s.network.pcs q) i
  have hcalls := le_total (total (carries t)) s.network.pcs q
  have howner : (s.owner t).isSome.toNat = 0 := by omega
  refine ⟨by simpa using howner, fun q' hmem => ?_⟩
  have hqueue := le_total (List.count t) seqs q'
  have hheld := List.count_pos_iff.mpr hmem
  omega

omit [DecidableEq Tid] in
theorem content (h : Coherent owner s seqs) (q : Q) :
    Shares s.network.lists seqs q (s.network.queue q).container
      (seqs q).reverse := by
  simpa [Shares, Network.queue] using h.represents

omit [DecidableEq Tid] in
theorem pushContract (h : Coherent owner s seqs) (q : Q) (a : Action Tid T) :
    PushContract (Fresh s.network.lists q) (s.network.queue q) a := by
  intro i t _ hpc q' hmember
  have hcarried : (s.network.pcs q i).carried = some t := by
    have hpc' : s.network.pcs q i = .pushStore t := hpc
    rw [hpc']
    rfl
  have hrep := h.content q
  exact (h.of_carried hcarried).2 q' (by
    simpa [Shares] using hrep.member_iff.mp hmember)

theorem agrees (h : Coherent owner s seqs) (q : Q) (a : Action Tid T) :
    Code.Agrees (Over (Shares s.network.lists seqs q))
      (exec build (inQueue build T) (s.network.queue q) a)
      (exec build (inQueue build T).sequence
        ((s.network.queue q).over (seqs q).reverse) a) :=
  exec_agrees build (inQueue_serves build s.network.lists seqs q) (h.content q)
    (h.pushContract q a)

/-- Each queue does what it would do over a list of its own. -/
theorem step (h : Coherent owner s seqs) {q : Q} {a : Action Tid T}
    {s' : Owned Q Tid T} (hstep : (network build owner).step s (q, a) s')
    (owns : Owns s (q, a)) :
    ∃ xs, exec build (inQueue build T).sequence
        ((s.network.queue q).over (seqs q).reverse) a =
          .ok ((s'.network.queue q).over xs) ∧
      Coherent owner s' (Function.update seqs q xs.reverse) := by
  obtain ⟨network', owner'⟩ := s'
  obtain ⟨s₁, hqueue, rfl, rfl⟩ := network_step build hstep
  obtain ⟨_, hover, xs, hcontent, rfl⟩ := (h.agrees build q a).of_ok hqueue
  refine ⟨xs, by rw [Network.put_queue_self]; exact hover, hcontent, ?_, ?_⟩
  · intro q'
    by_cases hq : q' = q
    · subst hq
      rw [Network.put_queue_self]
      exact (step_cases build (h.locked q') hqueue).locked (h.locked q')
    · rw [Network.put_queue_of_ne s.network hq]
      exact h.locked q'
  · intro t
    have hlocked : Locked ((s.network.queue q).over (seqs q).reverse) :=
      h.locked q
    have hstock := (step_cases build hlocked hover).stock t
    have hflow := (step_cases build (h.locked q) hqueue).flow
    have howner : (ownerAfter s.owner (s.network.queue q) s₁ a t).isSome.toNat +
        entrusted t a =
          (s.owner t).isSome.toNat +
            handedBack t (s.network.pcs q) s₁.pc a := by
      refine ownerAfter_balance (fun i hcall => ?_) fun hback => ?_
      · simp [owns i t hcall]
      · cases a with
        | next i | expire i =>
            have hreturns : returns ((s.network.queue q).pc i) (s₁.pc i) =
                some t := by
              by_contra hne
              exact hback (if_neg hne)
            exact (h.of_carried ((hflow i).carried_of_returns hreturns)).1
        | _ => exact absurd rfl hback
    have hcalls := total_update (total (carries t)) s.network.pcs q s₁.pc
    have hqueues := total_update (List.count t) seqs q xs.reverse
    have hplaces := h.places t
    simp only [Queue.stock, State.over_pc, State.over_container,
      Network.queue_pc, List.count_reverse] at hstock
    simp only [List.count_reverse] at hqueues
    simp only [Owned.places, Network.put] at hplaces ⊢
    omega

end Coherent

/-! ## Whole runs -/

def seenBy (q : Q) (_ : Owned Q Tid T) : Q × Action Tid T → Option (Action Tid T)
  | (_, .cancel i) => some (.cancel i)
  | (q', a) => if q' = q then some a else none

structure Separate (tr : History (Owned Q Tid T) (Q × Action Tid T))
    (s : Owned Q Tid T) (seqs : Q → List T) (q : Q)
    (own : History (State Tid (List T) T) (Action Tid T)) : Prop where
  run : (system build (inQueue build T).sequence Tid).Exec own
    ((s.network.queue q).over (seqs q).reverse)
  labels : own.map Prod.snd = observed (seenBy q) tr

theorem network_others {owner : T → Option Tid} {s s' : Owned Q Tid T} {q : Q}
    {a : Action Tid T} (h : (network build owner).step s (q, a) s') {q' : Q}
    (hq : q' ≠ q) (xs : List T) :
    (s'.network.queue q').over xs =
      { (s.network.queue q').over xs with
        pending := pendingAfter s.network.pending a } := by
  obtain ⟨s₁, hqueue, hput, -⟩ := network_step build h
  rw [hput, Network.put_queue_of_ne _ hq, exec_pending build hqueue]
  rfl

theorem Separate.next {owner : T → Option Tid}
    {tr : History (Owned Q Tid T) (Q × Action Tid T)}
    {s s' : Owned Q Tid T} {seqs : Q → List T} {q : Q}
    {own : History (State Tid (List T) T) (Action Tid T)}
    (h : Separate build tr s seqs q own) {q' : Q} {a : Action Tid T}
    {xs : List T}
    (hstep : (network build owner).step s (q', a) s')
    (hown : exec build (inQueue build T).sequence
      ((s.network.queue q').over (seqs q').reverse) a =
        .ok ((s'.network.queue q').over xs)) :
    ∃ own', Separate build ((s, (q', a)) :: tr) s'
      (Function.update seqs q' xs.reverse) q own' := by
  by_cases hq : q = q'
  · subst hq
    refine ⟨((s.network.queue q).over (seqs q).reverse, a) :: own, ⟨?_, ?_⟩⟩
    · rw [Function.update_self, List.reverse_reverse]
      exact h.run.next hown
    · rw [observed_cons, ← h.labels]
      cases a <;> simp [seenBy]
  · have hother := network_others build hstep hq (seqs q).reverse
    cases a with
    | cancel i =>
        refine ⟨((s.network.queue q).over (seqs q).reverse, .cancel i) :: own,
          ⟨?_, ?_⟩⟩
        · rw [Function.update_of_ne hq, hother]
          exact h.run.next rfl
        · rw [observed_cons, ← h.labels]
          rfl
    | _ =>
        refine ⟨own, ⟨?_, ?_⟩⟩
        · rw [Function.update_of_ne hq, hother]
          exact h.run
        · rw [observed_cons, ← h.labels]
          simp [seenBy, Ne.symm hq]

theorem network_exec {owner : T → Option Tid}
    {tr : History (Owned Q Tid T) (Q × Action Tid T)} {s : Owned Q Tid T}
    (run : (network build owner).Exec tr s) (owns : Meets Owns tr) :
    ∃ seqs, Coherent owner s seqs ∧
      ∀ q, ∃ own, Separate build tr s seqs q own := by
  induction run with
  | start init =>
      obtain rfl := init
      refine ⟨fun _ => [], ⟨Represents.initial, fun q => ?_, fun t => ?_⟩,
        fun q => ⟨[], .start rfl, rfl⟩⟩
      · exact (locked_inductive (v := inQueue build T) build).init rfl
      · simp [Owned.places, Network.initial, carries, Pc.carried, total]
  | @next tr s s' label run step ih =>
      obtain ⟨hown, hrest⟩ := meets_cons.mp owns
      obtain ⟨seqs, hcoherent, hseparate⟩ := ih hrest
      obtain ⟨q, a⟩ := label
      obtain ⟨xs, hexec, hafter⟩ := hcoherent.step build step hown
      exact ⟨_, hafter, fun q' => (hseparate q').elim fun _ h =>
        h.next build step hexec⟩

theorem Coherent.step_iff (owner₀ : T → Option Tid) {owner : T → Option Tid}
    {s : Owned Q Tid T} {seqs : Q → List T} (h : Coherent owner s seqs) (q : Q)
    {a : Action Tid T}
    (admits : s.network.Admits a) :
    (∃ s', (network build owner₀).step s (q, a) s') ↔
      ∃ s', (system build (inQueue build T).sequence Tid).step
        ((s.network.queue q).over (seqs q).reverse) a s' := by
  constructor
  · rintro ⟨s', hstep⟩
    obtain ⟨s₁, hqueue, -⟩ := network_step build hstep
    obtain ⟨s₂, hover, -⟩ := (h.agrees build q a).of_ok hqueue
    exact ⟨s₂, hover⟩
  · rintro ⟨s₂, hover⟩
    obtain ⟨s₁, hqueue, -⟩ := (h.agrees build q a).of_ok_right hover
    refine ⟨⟨s.network.put q s₁,
      ownerAfter s.owner (s.network.queue q) s₁ a⟩, ?_⟩
    change Owned.exec build s (q, a) = _
    rw [Owned.exec, Network.exec, if_pos admits, hqueue]
    change Except.ok _ = Except.ok _
    rw [Network.put_queue_self]

/-- No element is lost, and none is in two places. -/
theorem network_conserves {owner : T → Option Tid}
    {tr : History (Owned Q Tid T) (Q × Action Tid T)} {s : Owned Q Tid T}
    (run : (network build owner).Exec tr s) (owns : Meets Owns tr) :
    ∃ seqs, Represents ⟨s.network.heap, s.network.lists⟩ seqs ∧
      ∀ t, s.places seqs t = (owner t).isSome.toNat := by
  obtain ⟨seqs, hcoherent, -⟩ := network_exec build run owns
  exact ⟨seqs, hcoherent.represents, hcoherent.places⟩

theorem two_elements_conserved :
    ∃ tr s seqs, (network defaultBuild fun _ : Fin 2 => some (0 : Fin 2)).Exec
        tr s ∧
      s.network.pcs (1 : Fin 2) 0 = .pushLock 1 ∧
      Represents ⟨s.network.heap, s.network.lists⟩ seqs ∧
      ∀ t, s.places seqs t = 1 := by
  obtain ⟨tr, s, run, htest⟩ : ∃ tr s, (network defaultBuild
      fun _ : Fin 2 => some (0 : Fin 2)).Exec tr s ∧
        decide ((∀ p ∈ tr, ∀ i t, p.2.2 = .call i (.push t) →
            p.1.owner t = some i) ∧
          s.network.pcs (1 : Fin 2) 0 = .pushLock 1) = true :=
    Exec.ofRecord (Owned.exec defaultBuild)
      ⟨Network.initial defaultBuild (Fin 2) (Fin 2) (Fin 2), fun _ => some 0⟩
      [(0, .call 0 (.push 0)), (0, .next 0), (0, .next 0), (0, .next 0),
        (0, .signal 0 []), (1, .call 0 (.push 1))]
      (fun r => decide ((∀ p ∈ r.1, ∀ i t, p.2.2 = .call i (.push t) →
          p.1.owner t = some i) ∧
        r.2.network.pcs (1 : Fin 2) 0 = .pushLock 1)) rfl (by decide)
  obtain ⟨howns, hcalled⟩ := of_decide_eq_true htest
  obtain ⟨seqs, hrep, hplaces⟩ := network_conserves defaultBuild run howns
  exact ⟨tr, s, seqs, run, hcalled, hrep, hplaces⟩

end Iocore.Queue
