import Mathlib.Data.List.Basic
import Mathlib.Data.List.Induction
import Mathlib.Data.List.Nodup
import Mathlib.Logic.Function.Basic

/-!
# Chains of links

A link field maps a node to the node it points to, if any.  `Path link p xs q`
follows the field from `p` through exactly the nodes `xs` and arrives at `q`.
A doubly linked list is a forward path and a backward path that mirror each
other.  Every mutation of such a list is a `store` into one field of one node,
so the lemmas here say what a store does to the paths that meet the node and
that it leaves every other path alone.
-/

namespace Iocore.Foundation

universe u

variable {α : Type u}

def Path (link : α → Option α) : Option α → List α → Option α → Prop
  | p, [], q => p = q
  | p, x :: xs, q => p = some x ∧ Path link (link x) xs q

@[simp] theorem path_nil {link : α → Option α} {p q : Option α} :
    Path link p [] q ↔ p = q := Iff.rfl

@[simp] theorem path_cons {link : α → Option α} {p q : Option α} {x : α}
    {xs : List α} :
    Path link p (x :: xs) q ↔ p = some x ∧ Path link (link x) xs q := Iff.rfl

theorem not_path_none {link : α → Option α} {x : α} {xs : List α} :
    ¬ Path link none xs (some x) := by
  intro h
  cases xs with
  | nil => cases h
  | cons y ys => exact absurd h.1 (by simp)

theorem path_append {link : α → Option α} {p q : Option α} {xs ys : List α} :
    Path link p (xs ++ ys) q ↔ ∃ m, Path link p xs m ∧ Path link m ys q := by
  induction xs generalizing p with
  | nil => simp
  | cons x xs ih => simp [ih, and_assoc]

theorem path_concat {link : α → Option α} {p q : Option α} {xs : List α}
    {x : α} :
    Path link p (xs ++ [x]) q ↔ Path link p xs (some x) ∧ link x = q := by
  rw [path_append]
  constructor
  · rintro ⟨m, hxs, rfl, hlast⟩
    exact ⟨hxs, hlast⟩
  · rintro ⟨hxs, hlast⟩
    exact ⟨some x, hxs, rfl, hlast⟩

theorem Path.congr {link link' : α → Option α} {p q : Option α} {xs : List α}
    (hagree : ∀ x ∈ xs, link' x = link x) (h : Path link p xs q) :
    Path link' p xs q := by
  induction xs generalizing p with
  | nil => exact h
  | cons x xs ih =>
      obtain ⟨hp, hrest⟩ := h
      refine ⟨hp, ?_⟩
      rw [hagree x List.mem_cons_self]
      exact ih (fun y hy => hagree y (List.mem_cons_of_mem x hy)) hrest

theorem Path.head?_eq {link : α → Option α} {p : Option α} {xs : List α}
    (h : Path link p xs none) : p = xs.head? := by
  cases xs with
  | nil => exact h
  | cons x xs => exact h.1

theorem Path.unique {link : α → Option α} {p : Option α} {xs ys : List α}
    (hx : Path link p xs none) (hy : Path link p ys none) : xs = ys := by
  induction xs generalizing p ys with
  | nil =>
      obtain rfl : p = none := hx
      cases ys with
      | nil => rfl
      | cons y ys => exact absurd hy.1 (by simp)
  | cons x xs ih =>
      cases ys with
      | nil =>
          have hp : p = none := hy
          exact absurd (hp ▸ hx.1) (by simp)
      | cons y ys =>
          obtain rfl : x = y := Option.some.inj (hx.1.symm.trans hy.1)
          rw [ih hx.2 hy.2]

theorem Path.mem_iff {link : α → Option α} {p : Option α} {xs : List α}
    (h : Path link p xs none) {x : α} :
    x ∈ xs ↔ ∃ ys, Path link p ys (some x) := by
  constructor
  · intro hx
    obtain ⟨before, after, rfl⟩ := List.append_of_mem hx
    obtain ⟨m, hbefore, hm, -⟩ := path_append.mp h
    exact ⟨before, hm ▸ hbefore⟩
  · rintro ⟨ys, hys⟩
    induction ys generalizing p xs with
    | nil =>
        obtain rfl : p = some x := hys
        cases xs with
        | nil => exact absurd h (by simp)
        | cons z zs =>
            rw [Option.some.inj h.1]
            exact List.mem_cons_self
    | cons y ys ih =>
        cases xs with
        | nil =>
            have hp : p = none := h
            exact absurd (hp ▸ hys.1) (by simp)
        | cons z zs =>
            obtain rfl : y = z := Option.some.inj (hys.1.symm.trans h.1)
            exact List.mem_cons_of_mem y (ih h.2 hys.2)

section Store

variable [DecidableEq α]

/-- `if (p) p->field = value` -/
def store (link : α → Option α) (p : Option α) (value : Option α) :
    α → Option α :=
  match p with
  | none => link
  | some x => Function.update link x value

@[simp] theorem store_some_self (link : α → Option α) (x : α)
    (value : Option α) : store link (some x) value x = value := by
  simp [store]

theorem store_of_ne {link : α → Option α} {p value : Option α} {x : α}
    (h : p ≠ some x) : store link p value x = link x := by
  cases p with
  | none => rfl
  | some y => exact Function.update_of_ne (fun e => h (by rw [e])) _ _

theorem Path.store {link : α → Option α} {p q target value : Option α}
    {xs : List α} (houtside : ∀ x ∈ xs, target ≠ some x)
    (h : Path link p xs q) : Path (store link target value) p xs q :=
  h.congr fun x hx => store_of_ne (houtside x hx)

theorem Path.bypass {link : α → Option α} {p q : Option α}
    {before after : List α} {x : α}
    (nodup : (before ++ x :: after).Nodup)
    (h : Path link p (before ++ x :: after) q) :
    Path (Foundation.store link before.getLast? (link x))
      (if before = [] then link x else p) (before ++ after) q := by
  induction before using List.reverseRecOn with
  | nil => exact h.2
  | append_singleton before last =>
      obtain ⟨m, hbefore, hm, hafter⟩ := path_append.mp h
      obtain ⟨hleading, hlast⟩ := path_concat.mp hbefore
      have hdistinct := List.nodup_append.mp nodup
      have hlastBefore : last ∉ before := by
        have := List.nodup_append.mp hdistinct.1
        exact fun hmem => this.2.2 last hmem last (by simp) rfl
      have hlastAfter : last ∉ after := fun hmem =>
        hdistinct.2.2 last (by simp) last (List.mem_cons_of_mem x hmem) rfl
      rw [path_append]
      refine ⟨link x, path_concat.mpr ⟨?_, by simp⟩, ?_⟩
      · simp only [List.append_eq_nil_iff, List.cons_ne_self, and_false,
          if_false]
        refine hleading.store fun y hy => ?_
        simpa using fun e : last = y => hlastBefore (e ▸ hy)
      · refine hafter.store fun y hy => ?_
        simpa using fun e : last = y => hlastAfter (e ▸ hy)

end Store

/-! ## Doubly linked lists -/

/-- Forward from `head` through `xs`, backward from `tail` through its reverse. -/
structure Linked (next prev : α → Option α) (head tail : Option α)
    (xs : List α) : Prop where
  forward : Path next head xs none
  backward : Path prev tail xs.reverse none

namespace Linked

variable {next prev next' prev' : α → Option α} {head tail : Option α}
  {xs : List α}

theorem head_eq (h : Linked next prev head tail xs) : head = xs.head? :=
  h.forward.head?_eq

theorem tail_eq (h : Linked next prev head tail xs) : tail = xs.getLast? := by
  rw [h.backward.head?_eq, List.head?_reverse]

theorem next_eq (before after : List α) {x : α}
    (h : Linked next prev head tail (before ++ x :: after)) :
    next x = after.head? := by
  obtain ⟨m, -, -, hafter⟩ := path_append.mp h.forward
  exact hafter.head?_eq

theorem prev_eq (before after : List α) {x : α}
    (h : Linked next prev head tail (before ++ x :: after)) :
    prev x = before.getLast? := by
  have hback := h.backward
  rw [List.reverse_append, List.reverse_cons, List.append_assoc,
    List.singleton_append] at hback
  obtain ⟨m, -, -, hbefore⟩ := path_append.mp hback
  rw [hbefore.head?_eq, List.head?_reverse]

theorem congr (hnext : ∀ x ∈ xs, next' x = next x)
    (hprev : ∀ x ∈ xs, prev' x = prev x)
    (h : Linked next prev head tail xs) : Linked next' prev' head tail xs where
  forward := h.forward.congr hnext
  backward := h.backward.congr fun x hx => hprev x (List.mem_reverse.mp hx)

theorem empty (next prev : α → Option α) : Linked next prev none none [] :=
  ⟨rfl, rfl⟩

variable [DecidableEq α]

theorem cons {x : α} (hfresh : x ∉ xs) (nodup : xs.Nodup)
    (hprev : prev x = none) (h : Linked next prev head tail xs) :
    Linked (store next (some x) head) (store prev head (some x)) (some x)
      (tail.or (some x)) (x :: xs) where
  forward := by
    refine ⟨rfl, ?_⟩
    rw [store_some_self]
    exact h.forward.store fun y hy => by
      simpa using fun e : x = y => hfresh (e ▸ hy)
  backward := by
    rw [List.reverse_cons]
    cases xs with
    | nil =>
        obtain rfl : tail = none := h.backward
        obtain rfl : head = none := h.forward
        exact ⟨rfl, hprev⟩
    | cons y ys =>
        obtain rfl : head = some y := h.forward.1
        obtain ⟨hy, hys⟩ := List.nodup_cons.mp nodup
        have hback := h.backward
        rw [List.reverse_cons, path_concat] at hback
        obtain ⟨hfrom, -⟩ := hback
        have htail : tail.or (some x) = tail := by
          cases tail with
          | some last => rfl
          | none =>
              exact absurd (List.getLast?_eq_none_iff.mp h.tail_eq.symm)
                (List.cons_ne_nil y ys)
        have hne : x ≠ y := fun e => hfresh (e ▸ List.mem_cons_self)
        rw [htail, path_concat, List.reverse_cons, path_concat]
        refine ⟨⟨?_, by simp⟩, ?_⟩
        · refine hfrom.store fun z hz => ?_
          simpa using fun e : y = z => hy (e ▸ List.mem_reverse.mp hz)
        · rw [store_of_ne (fun e => hne (Option.some.inj e).symm), hprev]

/-- The links after a node was taken out: its neighbours point at each other. -/
theorem remove {before after : List α} {x : α}
    (nodup : (before ++ x :: after).Nodup)
    (h : Linked next prev head tail (before ++ x :: after)) :
    Linked (store next (prev x) (next x)) (store prev (next x) (prev x))
      (if before = [] then next x else head)
      (if after = [] then prev x else tail) (before ++ after) where
  forward := by
    rw [h.prev_eq before after]
    exact h.forward.bypass nodup
  backward := by
    have hback := h.backward
    rw [List.reverse_append, List.reverse_cons, List.append_assoc,
      List.singleton_append] at hback
    have hnodup : (after.reverse ++ x :: before.reverse).Nodup := by
      have := List.nodup_reverse.mpr nodup
      rwa [List.reverse_append, List.reverse_cons, List.append_assoc,
        List.singleton_append] at this
    have hbypass := hback.bypass hnodup
    rw [List.getLast?_reverse, ← h.next_eq before after] at hbypass
    simpa using hbypass

end Linked

end Iocore.Foundation
