import Iocore.InList.Family

/-!
# What the assertions of a list protect

`ASSERT` stands for the contract of `InListElement`, but sees only the two
links of the element and the two ends of the list.  Here nothing is assumed
about the caller: the family of lists is intact before the call, and the call
gets past its assertions.

`Push` looks for an element of another list by its links.  The only element of
a list has both links `NULL` too and slips through, so the assertions protect
the family exactly when no list consists of the element alone.  `Unlink` looks
at the ends as well: an element without a neighbour must be the end of this
very list.  That leaves the elements of this list and the interior elements of
the others, and taking out an interior element touches no end.
-/

namespace Iocore.InList

open Foundation

variable {ι T : Type} [DecidableEq ι] [DecidableEq T]
variable {s s' : Family ι T} {seqs : ι → List T} {build : Build}

/-! ## What the assertions say -/

omit [DecidableEq ι] in
private theorem push_asserts (debug : build.debugBuild = true) {heap : Heap T}
    {list : InList T} {t : T} {r : Heap T × InList T}
    (h : push build heap list t = .ok r) :
    heap.next t = none ∧ heap.prev t = none := by
  simp only [push, Code.bind_eq_ok, Build.assert_eq_ok debug] at h
  obtain ⟨-, -, -, -, -, -, -, hnext, -, hprev, -⟩ := h
  exact ⟨Option.isNone_iff_eq_none.mp hnext, Option.isNone_iff_eq_none.mp hprev⟩

omit [DecidableEq ι] in
private theorem unlink_asserts (debug : build.debugBuild = true) {heap : Heap T}
    {list : InList T} {t : T} {r : Heap T × InList T}
    (h : unlink build heap list t = .ok r) :
    list.head ≠ none ∧ (heap.prev t ≠ none ∨ list.head = some t) ∧
      (heap.next t ≠ none ∨ list.tail = some t) := by
  simp only [unlink, Code.bind_eq_ok, Build.assert_eq_ok debug] at h
  obtain ⟨-, hends, -, hprev, -, hnext, -⟩ := h
  rw [Bool.and_eq_true] at hends
  simpa [← Option.isSome_iff_ne_none] using
    And.intro hends.1 (And.intro hprev hnext)

namespace Represents

omit [DecidableEq ι] [DecidableEq T] in
theorem links (h : Represents s seqs) {j : ι} {t : T} (before after : List T)
    (hsplit : seqs j = before ++ t :: after) :
    s.heap.next t = after.head? ∧ s.heap.prev t = before.getLast? :=
  ⟨Linked.next_eq before after (hsplit ▸ h.holds j),
    Linked.prev_eq before after (hsplit ▸ h.holds j)⟩

omit [DecidableEq ι] [DecidableEq T] in
theorem eq_singleton (h : Represents s seqs) {j : ι} {t : T}
    (hmem : t ∈ seqs j) (hnext : s.heap.next t = none)
    (hprev : s.heap.prev t = none) : seqs j = [t] := by
  obtain ⟨before, after, hsplit⟩ := List.append_of_mem hmem
  obtain ⟨hafter, hbefore⟩ := h.links before after hsplit
  rw [hnext] at hafter
  rw [hprev] at hbefore
  rw [hsplit, List.getLast?_eq_none_iff.mp hbefore.symm,
    List.head?_eq_none_iff.mp hafter.symm, List.nil_append]

theorem notMem_erase (h : Represents s seqs) {j : ι} {t : T}
    (hmem : t ∈ seqs j) (k : ι) :
    t ∉ Function.update seqs j ((seqs j).erase t) k := by
  by_cases hkj : k = j
  · subst hkj
    rw [Function.update_self]
    exact (h.nodup k).not_mem_erase
  · rw [Function.update_of_ne hkj]
    exact fun hk => hkj (h.disjoint k j t hk hmem)

/-- Taking an interior element of list `j` out through another list `i`. -/
theorem unlink_interior (h : Represents s seqs) {i j : ι} {t : T}
    {before after : List T} (hsplit : seqs j = before ++ t :: after)
    (hlist : seqs i ≠ []) (hji : j ≠ i) (hbefore : before ≠ [])
    (hafter : after ≠ []) (build : Build) :
    ∃ s', s.call build (.unlink i t) = .ok (none, s') ∧
      Represents s' (Function.update seqs j (before ++ after)) ∧
      s'.heap.next t = none ∧ s'.heap.prev t = none := by
  have hmem : t ∈ seqs j := by simp [hsplit]
  have hhead : (s.lists i).head ≠ some t := by
    rw [(h.holds i).head_eq]
    exact fun e => hji (h.disjoint j i t hmem (List.mem_of_head? e))
  have htail : (s.lists i).tail ≠ some t := by
    rw [(h.holds i).tail_eq]
    exact fun e => hji (h.disjoint j i t hmem (List.mem_of_getLast? e))
  obtain ⟨hholds, hnext, hprev, hagree⟩ :=
    Holds.removed (hsplit ▸ h.holds j) (hsplit ▸ h.nodup j)
  rw [if_neg hbefore, if_neg hafter] at hholds
  have hrep := h.remove hsplit hholds hnext hprev hagree
  rw [Function.update_eq_self] at hrep
  -- The neighbours are other elements, and no end of list `i` points at `t`.
  have hfresh : t ∉ before ++ after :=
    (List.nodup_middle.mp (hsplit ▸ h.nodup j)).notMem
  rw [List.mem_append, not_or] at hfresh
  have hselfPrev : s.heap.prev t ≠ some t := by
    rw [(h.links before after hsplit).2]
    exact fun e => hfresh.1 (List.mem_of_getLast? e)
  have hselfNext : s.heap.next t ≠ some t := by
    rw [(h.links before after hsplit).1]
    exact fun e => hfresh.2 (List.mem_of_head? e)
  have hends : ((s.lists i).head.isSome && (s.lists i).tail.isSome) = true := by
    rw [← Option.not_isNone, ← Option.not_isNone, (h.holds i).head_isNone,
      (h.holds i).tail_isNone]
    simp [hlist]
  have hleft : (s.heap.prev t).isSome = true := by
    rw [(h.links before after hsplit).2]
    simp [hbefore]
  have hright : (s.heap.next t).isSome = true := by
    rw [(h.links before after hsplit).1]
    simp [hafter]
  refine ⟨_, ?_, hrep, hnext, hprev⟩
  simp only [Family.call, unlink_eq build hselfPrev hselfNext, hends, hleft,
    hright, Bool.true_or, Build.assert_true, Code.ok_bind, hhead, htail,
    if_false, pure, Except.pure, Function.update_eq_self]

theorem push_fresh (h : Represents s seqs) (build : Build) (i : ι) {t : T}
    (hfresh : ∀ j, t ∉ seqs j) :
    ∃ s', s.call build (.push i t) = .ok (none, s') ∧
      Represents s' (Function.update seqs i (t :: seqs i)) :=
  h.call build (c := .push i t) fun j hmember =>
    hfresh j (h.member_iff.mp hmember)

end Represents

/-! ## The two operations -/

/--
What gets past the assertions of `Push` keeps the family intact, with the
element prepended to list `i` and nothing else changed, for exactly the
elements that are not alone on a list.
-/
theorem push_intact_iff (debug : build.debugBuild = true)
    (h : Represents s seqs) (i : ι) (t : T) (build' : Build) :
    ((∃ r, s.call build (.push i t) = .ok r) →
      ∃ s', s.call build' (.push i t) = .ok (none, s') ∧
        Represents s' (Function.update seqs i (t :: seqs i))) ↔
      ∀ j, seqs j ≠ [t] := by
  constructor
  · intro intact j hsingle
    obtain ⟨hnext, hprev⟩ := h.links [] [] hsingle
    have hmem : t ∈ seqs j := by simp [hsingle]
    obtain ⟨s', -, hafter⟩ := intact (by
      simp only [Family.call, (h.holds i).push_eq build hnext hprev]
      exact ⟨_, rfl⟩)
    by_cases hji : j = i
    · subst hji
      have hnodup := hafter.nodup j
      rw [Function.update_self] at hnodup
      exact (List.nodup_cons.mp hnodup).1 hmem
    · refine hji (hafter.disjoint j i t ?_ ?_)
      · rwa [Function.update_of_ne hji]
      · simp
  · rintro hsingle ⟨r, hcall⟩
    obtain ⟨hnext, hprev⟩ : s.heap.next t = none ∧ s.heap.prev t = none := by
      simp only [Family.call, Code.bind_eq_ok] at hcall
      obtain ⟨r, hpush, -⟩ := hcall
      exact push_asserts debug hpush
    exact h.push_fresh build' i fun j hmem =>
      hsingle j (h.eq_singleton hmem hnext hprev)

theorem push_not_intact :
    ¬ ∀ (s : Family (Fin 2) (Fin 1)) seqs i t, Represents s seqs →
      (∃ r, s.call ⟨true, false⟩ (.push i t) = .ok r) →
        ∃ s', s.call ⟨true, false⟩ (.push i t) = .ok (none, s') ∧
          Represents s' (Function.update seqs i (t :: seqs i)) := by
  intro intact
  obtain ⟨s, hcall, hrep⟩ := Represents.initial.push_fresh defaultBuild
    (0 : Fin 2) (t := (0 : Fin 1)) (by decide)
  have hsingle := hrep.links (j := (0 : Fin 2)) (t := (0 : Fin 1)) [] [] rfl
  obtain ⟨s', -, hafter⟩ := intact s _ 1 0 hrep (by
    simp only [Family.call,
      (hrep.holds 1).push_eq ⟨true, false⟩ hsingle.1 hsingle.2]
    exact ⟨_, rfl⟩)
  exact absurd (hafter.disjoint 0 1 0 (by decide) (by decide)) (by decide)

theorem push_intact_fresh :
    ∃ s : Family (Fin 2) (Fin 2), ∃ seqs, Represents s seqs ∧ seqs 0 = [0] ∧
      ((∃ r, s.call ⟨true, false⟩ (.push 0 1) = .ok r) →
        ∃ s', s.call defaultBuild (.push 0 1) = .ok (none, s') ∧
          Represents s' (Function.update seqs 0 (1 :: seqs 0))) := by
  obtain ⟨s, -, h⟩ := Represents.initial.push_fresh defaultBuild
    (0 : Fin 2) (t := (0 : Fin 2)) (by decide)
  exact ⟨s, _, h, rfl, (push_intact_iff rfl h 0 1 defaultBuild).mpr (by decide)⟩

/--
What gets past the assertions of `Unlink` is in list `i` or inside another
list, and is taken out of the one list that holds it.
-/
theorem unlink_intact (debug : build.debugBuild = true)
    (h : Represents s seqs) {i : ι} {t : T}
    (checked : ∃ r, s.call build (.unlink i t) = .ok r) (build' : Build) :
    ∃ s' j, s.call build' (.unlink i t) = .ok (none, s') ∧ t ∈ seqs j ∧
      (j = i ∨ ∃ before after, seqs j = before ++ t :: after ∧
        before ≠ [] ∧ after ≠ []) ∧
      Represents s' (Function.update seqs j ((seqs j).erase t)) ∧
      s'.heap.next t = none ∧ s'.heap.prev t = none := by
  obtain ⟨r, hcall⟩ := checked
  simp only [Family.call, Code.bind_eq_ok] at hcall
  obtain ⟨r, hunlink, -⟩ := hcall
  obtain ⟨hends, hleft, hright⟩ := unlink_asserts debug hunlink
  have hlisted : ∃ j, t ∈ seqs j := by
    by_contra hnone
    obtain ⟨-, hprev⟩ := h.unlinked t fun j hj => hnone ⟨j, hj⟩
    have hhead := hleft.resolve_left (absurd hprev)
    rw [(h.holds i).head_eq] at hhead
    exact hnone ⟨i, List.mem_of_head? hhead⟩
  obtain ⟨j, hmem⟩ := hlisted
  by_cases hji : j = i
  · subst hji
    obtain ⟨s', hcall, hrep⟩ :=
      h.call build' (c := .unlink j t) (h.member_iff.mpr hmem)
    exact ⟨s', j, hcall, hmem, .inl rfl, hrep,
      hrep.unlinked t (h.notMem_erase hmem)⟩
  · obtain ⟨before, after, hsplit⟩ := List.append_of_mem hmem
    obtain ⟨hnext, hprev⟩ := h.links before after hsplit
    -- The ends of list `i` are its own, so both links of `t` are set.
    have hbefore : before ≠ [] := by
      rintro rfl
      have hhead := hleft.resolve_left (absurd hprev)
      rw [(h.holds i).head_eq] at hhead
      exact hji (h.disjoint j i t hmem (List.mem_of_head? hhead))
    have hafter : after ≠ [] := by
      rintro rfl
      have htail := hright.resolve_left (absurd hnext)
      rw [(h.holds i).tail_eq] at htail
      exact hji (h.disjoint j i t hmem (List.mem_of_getLast? htail))
    have herase : (seqs j).erase t = before ++ after := by
      have hfresh : t ∉ before := fun hmem =>
        (List.nodup_middle.mp (hsplit ▸ h.nodup j)).notMem
          (List.mem_append_left after hmem)
      rw [hsplit, List.erase_append_right _ hfresh, List.erase_cons_head]
    have hlist : seqs i ≠ [] := by
      rw [(h.holds i).head_eq] at hends
      exact fun e => hends (by rw [e, List.head?_nil])
    obtain ⟨s', hcall, hrep, hclear⟩ :=
      h.unlink_interior hsplit hlist hji hbefore hafter build'
    exact ⟨s', j, hcall, hmem,
      .inr ⟨before, after, hsplit, hbefore, hafter⟩, herase ▸ hrep, hclear⟩

theorem unlink_intact_other :
    ∃ s : Family (Fin 2) (Fin 4), ∃ seqs, Represents s seqs ∧
      seqs 0 = [2, 1, 0] ∧ seqs 1 = [3] ∧
      ∃ s' j, s.call defaultBuild (.unlink 1 1) = .ok (none, s') ∧
        1 ∈ seqs j ∧
        (j = 1 ∨ ∃ before after, seqs j = before ++ 1 :: after ∧
          before ≠ [] ∧ after ≠ []) ∧
        Represents s' (Function.update seqs j ((seqs j).erase 1)) ∧
        s'.heap.next 1 = none ∧ s'.heap.prev 1 = none := by
  obtain ⟨_, -, h₁⟩ := Represents.initial.push_fresh defaultBuild
    (0 : Fin 2) (t := (0 : Fin 4)) (by decide)
  obtain ⟨_, -, h₂⟩ := h₁.push_fresh defaultBuild 0 (t := 1) (by decide)
  obtain ⟨_, -, h₃⟩ := h₂.push_fresh defaultBuild 0 (t := 2) (by decide)
  obtain ⟨s, -, h⟩ := h₃.push_fresh defaultBuild 1 (t := 3) (by decide)
  obtain ⟨s', hcall, -⟩ := h.unlink_interior (i := 1) (j := 0) (t := 1)
    (show _ = [2] ++ 1 :: [0] from rfl) (by decide) (by decide) (by decide)
    (by decide) ⟨true, false⟩
  exact ⟨s, _, h, rfl, rfl, unlink_intact rfl h ⟨_, hcall⟩ defaultBuild⟩

end Iocore.InList
