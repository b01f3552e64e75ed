import Iocore.Foundation.Lines
import Mathlib.Data.List.DropRight

/-!
# Rows of a table

A row has its cells between separators, each filled up to a width with blanks.
Whoever reads it cuts it at the separators and drops the blanks at the ends, and
so gets the cells back that neither have a separator nor end in a blank.
-/

namespace Iocore.Foundation

universe u

variable {α : Type u} {sep blank : α} {width : ℕ} {cell : List α}
  {cells : List (List α)}

def pad (blank : α) (width : ℕ) (cell : List α) : List α :=
  cell ++ List.replicate (width - cell.length) blank

def row (sep blank : α) (width : ℕ) (cells : List (List α)) : List α :=
  sep :: (cells.map (pad blank width)).flatMap (· ++ [sep])

structure IsCell (sep blank : α) (cell : List α) : Prop where
  noSep : sep ∉ cell
  noBlank : cell.getLast? ≠ some blank

variable [DecidableEq α]

def readRow (sep blank : α) : List α → Option (List (List α))
  | [] => none
  | x :: rest =>
      if x = sep then
        some ((linesOf sep rest).map (List.rdropWhile (· = blank)))
      else none

theorem rdropWhile_pad (noBlank : cell.getLast? ≠ some blank) :
    (pad blank width cell).rdropWhile (· = blank) = cell := by
  rw [pad]
  induction width - cell.length with
  | zero =>
      rw [List.replicate_zero, List.append_nil, List.rdropWhile_eq_self_iff]
      intro hne hlast
      rw [List.getLast?_eq_some_getLast hne] at noBlank
      exact noBlank (congrArg some (of_decide_eq_true hlast))
  | succ n ih =>
      rw [List.replicate_succ', ← List.append_assoc, List.rdropWhile_concat,
        if_pos (decide_eq_true rfl), ih]

theorem readRow_row (hsep : sep ≠ blank)
    (h : ∀ cell ∈ cells, IsCell sep blank cell) :
    readRow sep blank (row sep blank width cells) = some cells := by
  have hfree : ∀ l ∈ cells.map (pad blank width), sep ∉ l := by
    intro l hl
    obtain ⟨cell, hcell, rfl⟩ := List.mem_map.mp hl
    rw [pad, List.mem_append, not_or]
    exact ⟨(h cell hcell).noSep, fun hmem => hsep (List.eq_of_mem_replicate hmem)⟩
  rw [row, readRow, if_pos rfl, linesOf_flatMap hfree, List.map_map]
  congr 1
  calc cells.map (List.rdropWhile (· = blank) ∘ pad blank width)
      = cells.map id :=
        List.map_congr_left fun cell hcell => rdropWhile_pad (h cell hcell).noBlank
    _ = cells := List.map_id cells

end Iocore.Foundation
