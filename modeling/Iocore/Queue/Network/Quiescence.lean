import Iocore.Queue.Network.Refinement
import Iocore.Queue.Quiescence

/-!
# Where the calls on many queues come to an end

A thread that is in a call on one queue never waits for another, so the queues
come to rest together: what one queue needs to go on is found in its own calls.
-/

namespace Iocore.Queue

open Foundation Foundation.System InList

variable {Q Tid T : Type} [Fintype Q] [DecidableEq Q] [DecidableEq Tid]
  [Fintype Tid] [DecidableEq T] (build : Build)

/-- What the threads keep to; no cancellation takes effect in a wait. -/
structure Keeps (build : Build) (s : Owned Q Tid T) (label : Q × Action Tid T) :
    Prop where
  owns : Owns s label
  spares : ∀ i, label.2 ≠ .cancelAct i
  nonzero : ∀ i ms, label.2 = .call i (.pop (.timed ms)) →
    build.debugBuild = true → ms ≠ 0

omit [Fintype Q] [DecidableEq Tid] [Fintype Tid] [DecidableEq T] in
theorem mem_of_seenBy {q : Q} {s : Owned Q Tid T} {label : Q × Action Tid T}
    {a : Action Tid T} (h : seenBy q s label = some a) : label.2 = a := by
  obtain ⟨q', a'⟩ := label
  cases a' with
  | cancel i => exact Option.some.inj h
  | _ =>
      simp only [seenBy] at h
      split at h
      · exact Option.some.inj h
      · cases h

omit [Fintype Q] in
theorem Separate.sound {tr : History (Owned Q Tid T) (Q × Action Tid T)}
    {s : Owned Q Tid T} {seqs : Q → List T} {q : Q}
    {own : History (State Tid (List T) T) (Action Tid T)}
    (h : Separate build tr s seqs q own) (keeps : Meets (Keeps build) tr) :
    Sound build (inQueue build T).sequence (fun xs ys => xs = ys)
      ((s.network.queue q).over (seqs q).reverse) := by
  refine (sound_inductive build stdQueue_lawful).exec (h.run.restrict ?_)
  intro p hp
  have hlabel : p.2 ∈ observed (seenBy q) tr :=
    h.labels ▸ List.mem_map_of_mem hp
  obtain ⟨r, hr, hseen⟩ := List.mem_filterMap.mp hlabel
  have hkeeps := keeps r hr
  have hsame := mem_of_seenBy hseen
  refine ⟨fun _ _ _ _ => trivial, fun i hact => ?_, fun i ms hcall _ => ?_⟩
  · exact absurd (hsame.trans hact) (hkeeps.spares i)
  · exact hkeeps.nonzero i ms (hsame.trans hcall)

/-! ## The steps of all queues -/

def networkAhead (build : Build) (s : Owned Q Tid T) : Nat :=
  total (total (Pc.ahead (inQueue build T).maxSpin (3 * Fintype.card Tid)))
    s.network.pcs

def networkGain (build : Build) (s : Owned Q Tid T)
    (label : Q × Action Tid T) : Nat :=
  gain (inQueue build T) (s.network.queue label.1) label.2

theorem network_locked {owner : T → Option Tid} {s : Owned Q Tid T}
    (h : (network build owner).Reachable s) :
    ∀ q, Locked (s.network.queue q) := by
  refine h.invariant (P := fun s => ∀ q, Locked (s.network.queue q)) ?_ ?_
  · rintro s rfl q
    exact (locked_inductive (v := inQueue build T) build).init rfl
  · rintro s ⟨q, a⟩ s' - hlocked hstep q'
    obtain ⟨s₁, hqueue, hput, -⟩ := network_step build hstep
    rw [hput]
    by_cases hq : q' = q
    · subst hq
      rw [Network.put_queue_self]
      exact (step_cases build (hlocked q') hqueue).locked (hlocked q')
    · rw [Network.put_queue_of_ne s.network hq]
      exact hlocked q'

theorem network_potential (owner : T → Option Tid) :
    Potential (network build owner : System (Owned Q Tid T) _)
      (networkAhead build) (networkGain build) where
  step := by
    rintro s ⟨q, a⟩ s' reached hstep
    obtain ⟨s₁, hqueue, hput, -⟩ := network_step build hstep
    have hless :=
      (step_cases build (network_locked build reached q) hqueue).ahead_lt
    have htotal := total_update
      (total (Pc.ahead (inQueue build T).maxSpin (3 * Fintype.card Tid)))
      s.network.pcs q s₁.pc
    simp only [ahead, Network.queue_pc] at hless
    simp only [networkAhead, networkGain, hput, Network.put]
    omega

def AllStuck (build : Build) (owner : T → Option Tid) (s : Owned Q Tid T) :
    Prop :=
  ∀ q a s', a.isOwn = true → ¬ (network build owner).step s (q, a) s'

omit [Fintype Q] [DecidableEq Q] [DecidableEq Tid] [Fintype Tid]
  [DecidableEq T] in
theorem admits_of_isOwn {s : Network Q Tid T} {a : Action Tid T}
    (h : a.isOwn = true) : s.Admits a := by
  cases a with
  | call i c => cases h
  | _ => trivial

structure Rested (build : Build) (owner : T → Option Tid) (s : Owned Q Tid T) :
    Prop where
  quiescent : ∀ q, Quiescent (inQueue build T) (s.network.queue q)
  /-- What is in use belongs to a thread, or is in a queue. -/
  placed : ∃ seqs, Represents ⟨s.network.heap, s.network.lists⟩ seqs ∧
    ∀ t, (s.owner t).isSome.toNat + total (List.count t) seqs =
      (owner t).isSome.toNat

theorem allStuck_rested {owner : T → Option Tid}
    {tr : History (Owned Q Tid T) (Q × Action Tid T)} {s : Owned Q Tid T}
    (run : (network build owner).Exec tr s) (keeps : Meets (Keeps build) tr)
    (stuck : AllStuck build owner s) : Rested build owner s := by
  obtain ⟨seqs, hcoherent, hseparate⟩ :=
    network_exec build run fun p hp => (keeps p hp).owns
  have hquiescent (q : Q) : Quiescent (inQueue build T) (s.network.queue q) := by
    obtain ⟨own, h⟩ := hseparate q
    have hrest := (h.sound build keeps).quiescent build stdQueue_lawful
      (fun _ _ _ => trivial) fun a s₂ hown hstep => by
        obtain ⟨s', hstep'⟩ := (hcoherent.step_iff build owner q
          (admits_of_isOwn hown)).mpr ⟨s₂, hstep⟩
        exact stuck q a s' hown hstep'
    intro i
    refine (hrest i).imp_right fun ⟨hpc, hempty⟩ => ⟨hpc, ?_⟩
    exact ((inQueue_serves build s.network.lists seqs q).isEmpty
      (hcoherent.content q)).trans hempty
  refine ⟨hquiescent, seqs, hcoherent.represents, fun t => ?_⟩
  have hcarries : total (total (carries t)) s.network.pcs = 0 := by
    refine Finset.sum_eq_zero fun q _ => Finset.sum_eq_zero fun i _ => ?_
    rcases hquiescent q i with ⟨result, hpc⟩ | ⟨hpc, -⟩
    · rw [Network.queue_pc] at hpc
      rw [hpc]
      rfl
    · rw [Network.queue_pc] at hpc
      rw [hpc]
      rfl
  have hplaces := hcoherent.places t
  rwa [Owned.places, hcarries, Nat.add_zero] at hplaces

theorem allStuck_of_quiescent {owner : T → Option Tid} {s : Owned Q Tid T}
    (h : ∀ q, Quiescent (inQueue build T) (s.network.queue q)) :
    AllStuck build owner s := by
  intro q a s' hown hstep
  obtain ⟨s₁, hqueue, -⟩ := network_step build hstep
  exact (h q).stuck build a s₁ hown hqueue

/--
Queues that share their elements come to rest.  Where no call can go on, every
queue is at rest, and from every state they get there by going on.
-/
theorem network_settles {owner : T → Option Tid}
    {tr : History (Owned Q Tid T) (Q × Action Tid T)} {s : Owned Q Tid T}
    (run : (network build owner).Exec tr s) (keeps : Meets (Keeps build) tr) :
    (AllStuck build owner s → Rested build owner s) ∧
      ∃ s', (((network build owner).restrict (Keeps build)).rest
        (networkGain build) s).Reachable s' ∧ Rested build owner s' := by
  refine ⟨allStuck_rested build run keeps, ?_⟩
  refine ((network_potential build owner).restrict (Keeps build)).completes ?_
    (run.restrict keeps).reachable
  rintro s₁ ⟨tr₁, run₁⟩ hrunning
  obtain ⟨run₁, keeps₁⟩ := run₁.ofRestrict
  have hmoves : ¬ AllStuck build owner s₁ := fun stuck =>
    hrunning (allStuck_rested build run₁ keeps₁ stuck)
  simp only [AllStuck, not_forall, not_not] at hmoves
  obtain ⟨q, a, s', hown, hstep⟩ := hmoves
  refine ⟨(q, a), s', gain_eq_zero_of_isOwn hown, ⟨?_, ?_, ?_⟩, hstep⟩
  · rintro i t rfl
    cases hown
  · rintro i rfl
    cases hown
  · rintro i ms rfl
    cases hown

theorem two_queues_rested :
    ∃ tr s, (network defaultBuild fun _ : Fin 2 => some (0 : Fin 2)).Exec tr s ∧
      s.owner 0 = none ∧ s.owner 1 = some 1 ∧
      Rested defaultBuild (fun _ => some 0) s ∧
      ∃ s' : Owned (Fin 2) (Fin 2) (Fin 2),
        (((network defaultBuild fun _ => some 0).restrict
          (Keeps defaultBuild)).rest (networkGain defaultBuild) s).Reachable s' ∧
        Rested defaultBuild (fun _ => some 0) s' := by
  obtain ⟨tr, s, run, htest⟩ : ∃ tr s, (network defaultBuild
      fun _ : Fin 2 => some (0 : Fin 2)).Exec tr s ∧
        decide ((∀ p ∈ tr, ∀ i t, p.2.2 = .call i (.push t) →
            p.1.owner t = some i) ∧
          (∀ p ∈ tr, ∀ i, p.2.2 ≠ .cancelAct i) ∧
          (∀ q : Fin 2, ∀ i, (s.network.pcs q i).isIdle = true) ∧
          s.owner 0 = none ∧ s.owner 1 = some 1) = true :=
    Exec.ofRecord (Owned.exec defaultBuild)
      ⟨Network.initial defaultBuild (Fin 2) (Fin 2) (Fin 2), fun _ => some 0⟩
      [(0, .call 0 (.push 0)), (0, .next 0), (0, .next 0), (0, .next 0),
        (0, .signal 0 []), (1, .call 0 (.push 1)), (1, .next 0), (1, .next 0),
        (1, .call 1 (.pop .untimed)), (1, .next 0), (1, .next 1),
        (1, .signal 0 []), (1, .next 1), (1, .next 1)]
      (fun r => decide ((∀ p ∈ r.1, ∀ i t, p.2.2 = .call i (.push t) →
          p.1.owner t = some i) ∧
        (∀ p ∈ r.1, ∀ i, p.2.2 ≠ .cancelAct i) ∧
        (∀ q : Fin 2, ∀ i, (r.2.network.pcs q i).isIdle = true) ∧
        r.2.owner 0 = none ∧ r.2.owner 1 = some 1)) rfl (by decide)
  obtain ⟨howns, hspares, hidle, hqueued, hpopped⟩ := of_decide_eq_true htest
  have hquiescent : ∀ q, Quiescent (inQueue defaultBuild (Fin 2))
      (s.network.queue q) := by
    intro q i
    have hpc := hidle q i
    rw [← Network.queue_pc] at hpc
    cases hq : (s.network.queue q).pc i with
    | idle result => exact .inl ⟨result, rfl⟩
    | _ => simp [hq, Pc.isIdle] at hpc
  obtain ⟨hstuck, hreached⟩ := network_settles defaultBuild run fun p hp =>
    ⟨howns p hp, hspares p hp, nofun⟩
  exact ⟨tr, s, run, hqueued, hpopped,
    hstuck (allStuck_of_quiescent defaultBuild hquiescent), hreached⟩

end Iocore.Queue
