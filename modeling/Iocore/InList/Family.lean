import Iocore.InList.Refinement

/-!
# A family of lists over one heap

Any number of lists share the elements of one heap.  In every run of calls
that keep the contract of `InListElement` the family stands for a family of
sequences: an element is pushed while no list holds it and unlinked from the
list that holds it, and `Pop` is called on a list that is not empty.
-/

namespace Iocore.InList

open Foundation Foundation.System

variable {ι T : Type}

structure Family (ι T : Type) where
  heap : Heap T
  lists : ι → InList T

inductive Call (ι T : Type) where
  | push (i : ι) (t : T)
  | pop (i : ι)
  | unlink (i : ι) (t : T)
  deriving DecidableEq, Repr

def Family.initial (ι T : Type) : Family ι T :=
  ⟨Heap.initial T, fun _ => InList.initial T⟩

def Family.Member (s : Family ι T) (i : ι) (t : T) : Prop :=
  ∃ ys, Path s.heap.next (s.lists i).head ys (some t)

def Family.Allowed (s : Family ι T) : Call ι T → Prop
  | .push _ t => ∀ j, ¬ s.Member j t
  | .pop i => (s.lists i).isEmpty = false
  | .unlink i t => s.Member i t

variable [DecidableEq ι] [DecidableEq T]

def Family.call (build : Build) (s : Family ι T) :
    Call ι T → Code (Option T × Family ι T)
  | .push i t => do
      let (heap, list) ← InList.push build s.heap (s.lists i) t
      return (none, ⟨heap, Function.update s.lists i list⟩)
  | .pop i => do
      let (t, heap, list) ← InList.pop build s.heap (s.lists i)
      return (some t, ⟨heap, Function.update s.lists i list⟩)
  | .unlink i t => do
      let (heap, list) ← InList.unlink build s.heap (s.lists i) t
      return (none, ⟨heap, Function.update s.lists i list⟩)

/-- The steps are calls together with what they returned. -/
def family (build : Build) (ι T : Type) [DecidableEq ι] [DecidableEq T] :
    System (Family ι T) (Call ι T × Option T) where
  init s := s = Family.initial ι T
  step s label s' := s.call build label.1 = .ok (label.2, s')

def Contract (s : Family ι T) (label : Call ι T × Option T) : Prop :=
  s.Allowed label.1

/-! ## The abstract family -/

def callSequences (seqs : ι → List T) : Call ι T → Option T × (ι → List T)
  | .push i t => (none, Function.update seqs i (t :: seqs i))
  | .pop i =>
      ((seqs i).getLast?, Function.update seqs i (seqs i).dropLast)
  | .unlink i t => (none, Function.update seqs i ((seqs i).erase t))

def sequences (ι T : Type) [DecidableEq ι] [DecidableEq T] :
    System (ι → List T) (Call ι T × Option T) where
  init seqs := seqs = fun _ => []
  step seqs label seqs' := callSequences seqs label.1 = (label.2, seqs')

structure Represents (s : Family ι T) (seqs : ι → List T) : Prop where
  holds : ∀ i, Holds s.heap (s.lists i) (seqs i)
  nodup : ∀ i, (seqs i).Nodup
  disjoint : ∀ i j t, t ∈ seqs i → t ∈ seqs j → i = j
  unlinked : ∀ t, (∀ i, t ∉ seqs i) →
    s.heap.next t = none ∧ s.heap.prev t = none

namespace Represents

variable {s : Family ι T} {seqs : ι → List T}

omit [DecidableEq ι] [DecidableEq T] in
theorem initial : Represents (Family.initial ι T) fun _ => [] where
  holds _ := Linked.empty _ _
  nodup _ := List.nodup_nil
  disjoint _ _ _ h := absurd h (by simp)
  unlinked _ _ := ⟨rfl, rfl⟩

omit [DecidableEq ι] [DecidableEq T] in
theorem member_iff (h : Represents s seqs) {i : ι} {t : T} :
    s.Member i t ↔ t ∈ seqs i :=
  (Path.mem_iff (h.holds i).forward).symm

omit [DecidableEq T] in
theorem update (h : Represents s seqs) {i : ι} {heap : Heap T}
    {list : InList T} {xs touched : List T}
    (hholds : Holds heap list xs) (hnodup : xs.Nodup)
    (hagree : AgreeOutside touched s.heap heap)
    (hown : ∀ t ∈ touched, ∀ j, j ≠ i → t ∉ seqs j)
    (hsub : ∀ t ∈ xs, t ∈ touched) (hold : ∀ t ∈ seqs i, t ∈ touched)
    (hdropped : ∀ t ∈ touched, t ∉ xs →
      heap.next t = none ∧ heap.prev t = none) :
    Represents ⟨heap, Function.update s.lists i list⟩
      (Function.update seqs i xs) where
  holds j := by
    by_cases hj : j = i
    · subst hj
      simpa using hholds
    · simp only [Function.update_of_ne hj]
      exact (h.holds j).agreeOutside hagree fun t ht htouched =>
        hown t htouched j hj ht
  nodup j := by
    by_cases hj : j = i
    · subst hj
      simpa using hnodup
    · rw [Function.update_of_ne hj]
      exact h.nodup j
  disjoint j k t hj hk := by
    by_cases hji : j = i <;> by_cases hki : k = i
    · rw [hji, hki]
    · subst hji
      rw [Function.update_self] at hj
      rw [Function.update_of_ne hki] at hk
      exact absurd hk (hown t (hsub t hj) k hki)
    · subst hki
      rw [Function.update_of_ne hji] at hj
      rw [Function.update_self] at hk
      exact absurd hj (hown t (hsub t hk) j hji)
    · rw [Function.update_of_ne hji] at hj
      rw [Function.update_of_ne hki] at hk
      exact h.disjoint j k t hj hk
  unlinked t ht := by
    have hout : t ∉ xs := by simpa using ht i
    by_cases htouched : t ∈ touched
    · exact hdropped t htouched hout
    · rw [(hagree t htouched).1, (hagree t htouched).2]
      refine h.unlinked t fun j => ?_
      by_cases hj : j = i
      · subst hj
        exact fun hmem => htouched (hold t hmem)
      · simpa [Function.update_of_ne hj] using ht j

omit [DecidableEq T] in
theorem remove (h : Represents s seqs) {i : ι} {heap : Heap T}
    {list : InList T} {before after : List T} {t : T}
    (hsplit : seqs i = before ++ t :: after)
    (hholds : Holds heap list (before ++ after))
    (hnext : heap.next t = none) (hprev : heap.prev t = none)
    (hagree : AgreeOutside (before ++ t :: after) s.heap heap) :
    Represents ⟨heap, Function.update s.lists i list⟩
      (Function.update seqs i (before ++ after)) := by
  have hnodup : (before ++ t :: after).Nodup := hsplit ▸ h.nodup i
  refine h.update hholds (List.nodup_cons.mp (List.nodup_middle.mp hnodup)).2
    hagree ?_ ?_ ?_ ?_
  · intro y hy j hj hmem
    exact hj (h.disjoint j i y hmem (hsplit ▸ hy))
  · intro y hy
    rw [List.mem_append] at hy ⊢
    exact hy.imp_right (List.mem_cons_of_mem t)
  · exact fun y hy => hsplit ▸ hy
  · intro y hy hout
    have hyt : y = t := by
      have hcases : y ∈ before ∨ y = t ∨ y ∈ after := by simpa using hy
      rcases hcases with hbefore | rfl | hafter
      · exact absurd (List.mem_append_left after hbefore) hout
      · rfl
      · exact absurd (List.mem_append_right before hafter) hout
    rw [hyt]
    exact ⟨hnext, hprev⟩

theorem call (build : Build) (h : Represents s seqs) {c : Call ι T}
    (hallowed : s.Allowed c) :
    ∃ s', s.call build c = .ok ((callSequences seqs c).1, s') ∧
      Represents s' (callSequences seqs c).2 := by
  cases c with
  | push i t =>
      have hfresh : ∀ j, t ∉ seqs j := fun j hj =>
        hallowed j (h.member_iff.mpr hj)
      obtain ⟨hnext, hprev⟩ := h.unlinked t hfresh
      obtain ⟨heap, list, hcall, hholds, hagree⟩ :=
        (h.holds i).push build (h.nodup i) (hfresh i) hnext hprev
      refine ⟨_, by simp only [Family.call, hcall]; rfl, ?_⟩
      refine h.update hholds (List.nodup_cons.mpr ⟨hfresh i, h.nodup i⟩)
        hagree ?_ (fun _ hy => hy) (fun _ hy => List.mem_cons_of_mem t hy)
        fun y hy hout => absurd hy hout
      intro y hy j hj
      rcases List.mem_cons.mp hy with rfl | hy
      · exact hfresh j
      · exact fun hmem => hj (h.disjoint j i y hmem hy)
  | pop i =>
      have hne : seqs i ≠ [] := by
        have hempty : (s.lists i).isEmpty = false := hallowed
        rw [(h.holds i).isEmpty_eq] at hempty
        simpa using hempty
      obtain ⟨ys, t, hsplit⟩ : ∃ ys t, seqs i = ys ++ [t] :=
        ⟨(seqs i).dropLast, (seqs i).getLast hne,
          (List.dropLast_append_getLast hne).symm⟩
      obtain ⟨heap, list, hcall, hholds, hnext, hprev, hagree⟩ :=
        Holds.pop build (hsplit ▸ h.holds i) (hsplit ▸ h.nodup i)
      refine ⟨⟨heap, Function.update s.lists i list⟩, ?_, ?_⟩
      · simp only [Family.call, hcall, callSequences, hsplit,
          List.getLast?_concat]
        rfl
      · have hremove := h.remove hsplit (by rwa [List.append_nil]) hnext hprev
          hagree
        simpa [callSequences, hsplit] using hremove
  | unlink i t =>
      obtain ⟨before, after, hsplit⟩ :=
        List.append_of_mem (h.member_iff.mp hallowed)
      have hnodup : (before ++ t :: after).Nodup := hsplit ▸ h.nodup i
      obtain ⟨heap, list, hcall, hholds, hnext, hprev, hagree⟩ :=
        Holds.unlink build (hsplit ▸ h.holds i) hnodup
      refine ⟨⟨heap, Function.update s.lists i list⟩, ?_, ?_⟩
      · simp only [Family.call, hcall, callSequences]
        rfl
      · have hbefore : t ∉ before := fun hmem =>
          (List.nodup_middle.mp hnodup).notMem (List.mem_append_left after hmem)
        have herase : (seqs i).erase t = before ++ after := by
          rw [hsplit, List.erase_append_right _ hbefore, List.erase_cons_head]
        simp only [callSequences, herase]
        exact h.remove hsplit hholds hnext hprev hagree

end Represents

/-! ## Runs -/

theorem family_simulation (build : Build) :
    ((family build ι T).restrict Contract).Simulation (sequences ι T)
      (fun _ label => some label) Represents where
  init := by
    rintro s rfl
    exact ⟨_, rfl, Represents.initial⟩
  step := by
    rintro s seqs ⟨c, r⟩ s' - h ⟨hallowed, hstep⟩
    obtain ⟨s'', hcall, hafter⟩ := h.call build hallowed
    have heq : (r, s') = ((callSequences seqs c).1, s'') :=
      Except.ok.inj (hstep.symm.trans hcall)
    cases heq
    exact ⟨(callSequences seqs c).2, rfl, hafter⟩

def pushedOn (i : ι) : Call ι T × Option T → Option T
  | (.push j t, _) => if j = i then some t else none
  | _ => none

def poppedFrom (i : ι) : Call ι T × Option T → Option T
  | (.pop j, r) => if j = i then r else none
  | _ => none

private theorem callSequences_balance (seqs : ι → List T) {c : Call ι T}
    (hunlink : ∀ j t, c ≠ .unlink j t) (i : ι) :
    let (r, seqs') := callSequences seqs c
    (pushedOn i (c, r)).toList ++ seqs i =
      seqs' i ++ (poppedFrom i (c, r)).toList := by
  cases c with
  | push j t =>
      by_cases hj : j = i
      · subst hj
        simp [callSequences, pushedOn, poppedFrom]
      · simp [callSequences, pushedOn, poppedFrom, hj,
          Function.update_of_ne (Ne.symm hj)]
  | pop j =>
      by_cases hj : j = i
      · subst hj
        cases hsplit : seqs j using List.reverseRecOn <;>
          simp [callSequences, pushedOn, poppedFrom, hsplit]
      · simp [callSequences, pushedOn, poppedFrom, hj,
          Function.update_of_ne (Ne.symm hj)]
  | unlink j t => exact absurd rfl (hunlink j t)

/-- Without `Unlink`, what was pushed on a list is what it holds and what left. -/
theorem sequences_fifo {tr : History (ι → List T) (Call ι T × Option T)}
    {seqs : ι → List T} (run : (sequences ι T).Exec tr seqs)
    (hunlink : ∀ p ∈ tr, ∀ j t, p.2.1 ≠ .unlink j t) (i : ι) :
    (tr.map Prod.snd).filterMap (pushedOn i) =
      seqs i ++ (tr.map Prod.snd).filterMap (poppedFrom i) := by
  induction run with
  | start init =>
      obtain rfl := init
      rfl
  | @next tr seqs seqs' label run step ih =>
      have hrest := ih fun p hp => hunlink p (List.mem_cons_of_mem _ hp)
      have hbalance := callSequences_balance seqs
        (hunlink _ List.mem_cons_self) i
      have hstep : callSequences seqs label.1 = (label.2, seqs') := step
      rw [hstep] at hbalance
      rw [List.map_cons, filterMap_cons_toList, filterMap_cons_toList, hrest,
        ← List.append_assoc, ← List.append_assoc]
      exact congrArg (· ++ _) hbalance

/--
After every run that keeps the contract the family stands for the sequences
the calls build up, the end pointers tell an empty list from others, every
call the contract allows runs through with all its checks, in every build, and
what it returns and does is what it does to the sequences.  Elements that are
never unlinked leave a list in the order they were pushed on it.
-/
theorem family_refines_sequences (build : Build)
    {tr : History (Family ι T) (Call ι T × Option T)} {s : Family ι T}
    (run : (family build ι T).Exec tr s) (contract : Meets Contract tr) :
    ∃ tr' seqs, (sequences ι T).Exec tr' seqs ∧
      tr'.map Prod.snd = tr.map Prod.snd ∧ Represents s seqs ∧
      (∀ i, ((s.lists i).head = none ↔ seqs i = []) ∧
        ((s.lists i).tail = none ↔ seqs i = []) ∧
        ((s.lists i).isEmpty = true ↔ seqs i = [])) ∧
      (∀ c, s.Allowed c →
        ∃ s', s.call build c = .ok ((callSequences seqs c).1, s') ∧
          Represents s' (callSequences seqs c).2) ∧
      ((∀ p ∈ tr, ∀ i t, p.2.1 ≠ .unlink i t) → ∀ i,
        ((tr.map Prod.snd).filterMap (pushedOn i)).reverse =
          ((tr.map Prod.snd).filterMap (poppedFrom i)).reverse ++
            (seqs i).reverse) := by
  obtain ⟨tr', seqs, habstract, hlabels, hrep⟩ :=
    (family_simulation build).exec (run.restrict contract)
  have hlabels' : tr'.map Prod.snd = tr.map Prod.snd := by
    rw [hlabels, observed, ← List.filterMap_eq_map]
    rfl
  refine ⟨tr', seqs, habstract, hlabels', hrep, fun i => ?_,
    fun c => hrep.call build, fun hunlink i => ?_⟩
  · have hholds := hrep.holds i
    refine ⟨?_, ?_, ?_⟩
    · rw [← Option.isNone_iff_eq_none, hholds.head_isNone,
        List.isEmpty_iff]
    · rw [← Option.isNone_iff_eq_none, hholds.tail_isNone,
        List.isEmpty_iff]
    · rw [hholds.isEmpty_eq, List.isEmpty_iff]
  · have hfifo := sequences_fifo habstract (fun p hp => by
      have hmem : p.2 ∈ tr.map Prod.snd :=
        hlabels' ▸ List.mem_map_of_mem hp
      obtain ⟨q, hq, heq⟩ := List.mem_map.mp hmem
      exact heq ▸ hunlink q hq) i
    rw [hlabels'] at hfifo
    rw [hfifo, List.reverse_append]

theorem Represents.goesOn {build : Build}
    {tr : History (Family ι T) (Call ι T × Option T)} {s : Family ι T}
    {seqs : ι → List T} (h : Represents s seqs)
    (run : (family build ι T).Exec tr s) (contract : Meets Contract tr)
    (c : Call ι T) (allowed : s.Allowed c) :
    ∃ tr' s', (family build ι T).Exec tr' s' ∧ Meets Contract tr' ∧
      tr'.map Prod.snd = (c, (callSequences seqs c).1) :: tr.map Prod.snd ∧
      Represents s' (callSequences seqs c).2 := by
  obtain ⟨s', hcall, hafter⟩ := h.call build allowed
  have hstep : (family build ι T).step s (c, (callSequences seqs c).1) s' := hcall
  exact ⟨_, s', run.next hstep, meets_cons.mpr ⟨allowed, contract⟩, rfl, hafter⟩

theorem family_run_refines :
    ∃ tr s seqs, (family ⟨true, false⟩ (Fin 2) (Fin 3)).Exec tr s ∧
      tr.map Prod.snd = [(.pop 0, some 0), (.push 1 1, none),
        (.unlink 0 1, none), (.push 0 2, none), (.push 0 1, none),
        (.push 0 0, none)] ∧ Represents s seqs := by
  have start : (family ⟨true, false⟩ (Fin 2) (Fin 3)).Exec [] _ := .start rfl
  obtain ⟨tr₁, s₁, run₁, keeps₁, labels₁, rep₁⟩ := Represents.initial.goesOn
    start (meets_nil _) (.push 0 0)
    fun j => by rw [Represents.initial.member_iff]; simp
  obtain ⟨tr₂, s₂, run₂, keeps₂, labels₂, rep₂⟩ := rep₁.goesOn run₁ keeps₁
    (.push 0 1) fun j => by rw [rep₁.member_iff]; revert j; decide
  obtain ⟨tr₃, s₃, run₃, keeps₃, labels₃, rep₃⟩ := rep₂.goesOn run₂ keeps₂
    (.push 0 2) fun j => by rw [rep₂.member_iff]; revert j; decide
  obtain ⟨tr₄, s₄, run₄, keeps₄, labels₄, rep₄⟩ := rep₃.goesOn run₃ keeps₃
    (.unlink 0 1) (rep₃.member_iff.mpr (by decide))
  obtain ⟨tr₅, s₅, run₅, keeps₅, labels₅, rep₅⟩ := rep₄.goesOn run₄ keeps₄
    (.push 1 1) fun j => by rw [rep₄.member_iff]; revert j; decide
  obtain ⟨tr₆, s₆, run₆, keeps₆, labels₆, -⟩ := rep₅.goesOn run₅ keeps₅
    (.pop 0) ((rep₅.holds 0).isEmpty_eq.trans (by decide))
  obtain ⟨tr', seqs, -, -, hrep, -⟩ :=
    family_refines_sequences ⟨true, false⟩ run₆ keeps₆
  refine ⟨tr₆, s₆, seqs, run₆, ?_, hrep⟩
  rw [labels₆, labels₅, labels₄, labels₃, labels₂, labels₁]
  decide

end Iocore.InList
