import Mathlib.Data.List.Basic

/-!
# Lines of a text

A line of a text is a piece of it without the separator that stands between
separators or the ends of the text.  Reading a text line by line takes the
first line off and goes on behind the separator; it meets every line that is
not empty.
-/

namespace Iocore.Foundation

universe u

variable {α : Type u}

def IsLine (sep : α) (text line : List α) : Prop :=
  ∃ before after, text = before ++ line ++ after ∧ sep ∉ line ∧
    (before = [] ∨ ∃ front, before = front ++ [sep]) ∧
    (after = [] ∨ ∃ rest, after = sep :: rest)

theorem isLine_nil {sep : α} {line : List α} :
    IsLine sep [] line ↔ line = [] := by
  constructor
  · rintro ⟨before, after, htext, -⟩
    simp only [List.nil_eq, List.append_eq_nil_iff] at htext
    exact htext.1.2
  · rintro rfl
    exact ⟨[], [], rfl, List.not_mem_nil, .inl rfl, .inl rfl⟩

variable [DecidableEq α]

def firstLine (sep : α) (text : List α) : List α := text.takeWhile (· ≠ sep)

def afterLine (sep : α) (text : List α) : List α :=
  (text.dropWhile (· ≠ sep)).tail

variable {sep : α} {text line : List α}

theorem firstLine_append (hfree : sep ∉ line) (rest : List α) :
    firstLine sep (line ++ sep :: rest) = line ∧
      afterLine sep (line ++ sep :: rest) = rest := by
  induction line with
  | nil => simp [firstLine, afterLine]
  | cons x line ih =>
      rw [List.mem_cons, not_or] at hfree
      have hx : x ≠ sep := fun e => hfree.1 e.symm
      simpa [firstLine, afterLine, hx] using ih hfree.2

theorem firstLine_of_notMem (hfree : sep ∉ line) :
    firstLine sep line = line ∧ afterLine sep line = [] := by
  induction line with
  | nil => exact ⟨rfl, rfl⟩
  | cons x line ih =>
      rw [List.mem_cons, not_or] at hfree
      have hx : x ≠ sep := fun e => hfree.1 e.symm
      simpa [firstLine, afterLine, hx] using ih hfree.2

theorem text_cases (sep : α) (text : List α) :
    sep ∉ firstLine sep text ∧
      (text = firstLine sep text ∧ afterLine sep text = [] ∨
        text = firstLine sep text ++ sep :: afterLine sep text) := by
  induction text with
  | nil => simp [firstLine, afterLine]
  | cons x text ih =>
      by_cases hx : x = sep
      · subst hx
        simp [firstLine, afterLine]
      · have hne : sep ≠ x := fun e => hx e.symm
        simpa [firstLine, afterLine, hx, hne] using ih

theorem length_afterLine_lt (h : text ≠ []) :
    (afterLine sep text).length < text.length := by
  rcases (text_cases sep text).2 with ⟨-, hafter⟩ | htext
  · rw [hafter]
    exact List.length_pos_of_ne_nil h
  · have hlength := congrArg List.length htext
    rw [List.length_append, List.length_cons] at hlength
    omega

def linesOf (sep : α) (text : List α) : List (List α) :=
  if _h : text = [] then []
  else firstLine sep text :: linesOf sep (afterLine sep text)
  termination_by text.length
  decreasing_by exact length_afterLine_lt _h

/-- A text that is written line by line is read as these lines. -/
theorem linesOf_flatMap {ls : List (List α)} (hfree : ∀ l ∈ ls, sep ∉ l) :
    linesOf sep (ls.flatMap (· ++ [sep])) = ls := by
  induction ls with
  | nil => rw [List.flatMap_nil, linesOf, dif_pos rfl]
  | cons l ls ih =>
      have htext : (l :: ls).flatMap (· ++ [sep]) =
          l ++ sep :: ls.flatMap (· ++ [sep]) := by simp
      obtain ⟨hfirst, hrest⟩ := firstLine_append (hfree l List.mem_cons_self)
        (ls.flatMap (· ++ [sep]))
      rw [htext, linesOf, dif_neg (by simp), hfirst, hrest,
        ih fun l' hl => hfree l' (List.mem_cons_of_mem l hl)]

theorem isLine_iff (hline : line ≠ []) :
    IsLine sep text line ↔
      line = firstLine sep text ∨ IsLine sep (afterLine sep text) line := by
  constructor
  · rintro ⟨before, after, rfl, hfree, rfl | ⟨front, rfl⟩, hafter⟩
    · left
      rcases hafter with rfl | ⟨rest, rfl⟩
      · rw [List.append_nil, List.nil_append, (firstLine_of_notMem hfree).1]
      · rw [List.nil_append, (firstLine_append hfree rest).1]
    · right
      rcases text_cases sep front with ⟨hfirst, ⟨hfront, -⟩ | hfront⟩
      · have htext : front ++ [sep] ++ line ++ after =
            front ++ sep :: (line ++ after) := by simp
        rw [htext, (firstLine_append (hfront ▸ hfirst) _).2]
        exact ⟨[], after, rfl, hfree, .inl rfl, hafter⟩
      · have htext : front ++ [sep] ++ line ++ after =
            firstLine sep front ++
              sep :: (afterLine sep front ++ [sep] ++ line ++ after) := by
          conv_lhs => rw [hfront]
          simp
        rw [htext, (firstLine_append hfirst _).2]
        exact ⟨_, after, rfl, hfree, .inr ⟨_, rfl⟩, hafter⟩
  · obtain ⟨hfree, hcases⟩ := text_cases sep text
    rintro (rfl | ⟨before, after, hrest, hsep, hbefore, hafter⟩)
    · rcases hcases with ⟨htext, -⟩ | htext
      · exact ⟨[], [], by simpa using htext, hfree, .inl rfl, .inl rfl⟩
      · exact ⟨[], _, by simpa using htext, hfree, .inl rfl, .inr ⟨_, rfl⟩⟩
    · rcases hcases with ⟨-, hnil⟩ | htext
      · rw [hnil, List.nil_eq, List.append_eq_nil_iff,
          List.append_eq_nil_iff] at hrest
        exact absurd hrest.1.2 hline
      · refine ⟨firstLine sep text ++ sep :: before, after, ?_, hsep, ?_, hafter⟩
        · rw [hrest] at htext
          simpa using htext
        · right
          rcases hbefore with rfl | ⟨front, rfl⟩
          · exact ⟨_, rfl⟩
          · exact ⟨firstLine sep text ++ sep :: front, by simp⟩

end Iocore.Foundation
