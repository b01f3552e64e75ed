import Mathlib.Data.List.Basic

/-!
# Patterns with groups

A pattern is a sequence of pieces: a word, any number of letters of a class, or
a group, which is at least one letter of a class.  A text matches if it can be
cut into what the pieces take, and the result is what the groups took.

A matcher finds a match of a text if there is one; `firstMatch`, which tries the
longest piece first and goes back to shorter ones, gives such a matcher.  Where no
piece can take what the next one starts with, there is only one way to cut a
text, so all matchers give the same.
-/

namespace Iocore.Foundation

universe u

variable {α : Type u}

inductive Piece (α : Type u) where
  | word (letters : List α)
  | many (cls : α → Bool)
  | group (cls : α → Bool)

inductive Piece.Takes : Piece α → List α → List (List α) → Prop
  | word (letters : List α) : Takes (.word letters) letters []
  | many {cls : α → Bool} {text : List α} (h : ∀ x ∈ text, cls x = true) :
      Takes (.many cls) text []
  | group {cls : α → Bool} {text : List α} (nonempty : text ≠ [])
      (h : ∀ x ∈ text, cls x = true) : Takes (.group cls) text [text]

inductive Matches : List (Piece α) → List α → List (List α) → Prop
  | nil : Matches [] [] []
  | cons {piece : Piece α} {pieces : List (Piece α)} {text rest : List α}
      {group groups : List (List α)} (taken : piece.Takes text group)
      (later : Matches pieces rest groups) :
      Matches (piece :: pieces) (text ++ rest) (group ++ groups)

section

variable {pieces : List (Piece α)} {cls : α → Bool} {text : List α}
  {groups : List (List α)}

theorem matches_nil :
    Matches ([] : List (Piece α)) text groups ↔ text = [] ∧ groups = [] := by
  constructor
  · intro h
    cases h
    exact ⟨rfl, rfl⟩
  · rintro ⟨rfl, rfl⟩
    exact .nil

theorem matches_word {letters : List α} :
    Matches (.word letters :: pieces) text groups ↔
      ∃ rest, text = letters ++ rest ∧ Matches pieces rest groups := by
  constructor
  · intro h
    cases h with
    | cons taken later =>
        cases taken
        exact ⟨_, rfl, later⟩
  · rintro ⟨rest, rfl, later⟩
    exact .cons (.word letters) later

theorem matches_many :
    Matches (.many cls :: pieces) text groups ↔
      ∃ taken rest, text = taken ++ rest ∧ (∀ x ∈ taken, cls x = true) ∧
        Matches pieces rest groups := by
  constructor
  · intro h
    cases h with
    | cons taken later =>
        cases taken with
        | many h => exact ⟨_, _, rfl, h, later⟩
  · rintro ⟨taken, rest, rfl, h, later⟩
    exact .cons (.many h) later

theorem matches_group :
    Matches (.group cls :: pieces) text groups ↔
      ∃ taken rest later, text = taken ++ rest ∧ groups = taken :: later ∧
        taken ≠ [] ∧ (∀ x ∈ taken, cls x = true) ∧
        Matches pieces rest later := by
  constructor
  · intro h
    cases h with
    | cons taken later =>
        cases taken with
        | group nonempty h => exact ⟨_, _, _, rfl, rfl, nonempty, h, later⟩
  · rintro ⟨taken, rest, later, rfl, rfl, nonempty, h, hlater⟩
    exact .cons (.group nonempty h) hlater

end

/-! ## The matcher -/

def cuts (cls : α → Bool) : List α → List (List α × List α)
  | [] => [([], [])]
  | x :: text =>
      (if cls x then (cuts cls text).map fun c => (x :: c.1, c.2) else []) ++
        [([], x :: text)]

theorem mem_cuts {cls : α → Bool} {text taken rest : List α} :
    (taken, rest) ∈ cuts cls text ↔
      text = taken ++ rest ∧ ∀ x ∈ taken, cls x = true := by
  induction text generalizing taken with
  | nil =>
      rw [cuts, List.mem_singleton, Prod.mk.injEq, List.nil_eq,
        List.append_eq_nil_iff]
      constructor
      · rintro ⟨rfl, rfl⟩
        exact ⟨⟨rfl, rfl⟩, fun _ h => absurd h List.not_mem_nil⟩
      · exact And.left
  | cons x text ih =>
      rw [cuts, List.mem_append, List.mem_singleton, Prod.mk.injEq]
      constructor
      · rintro (hmem | ⟨rfl, rfl⟩)
        · split at hmem
          case isTrue hx =>
            obtain ⟨⟨taken', rest'⟩, hcut, heq⟩ := List.mem_map.mp hmem
            cases heq
            obtain ⟨rfl, htaken⟩ := ih.mp hcut
            exact ⟨rfl, List.forall_mem_cons.mpr ⟨hx, htaken⟩⟩
          case isFalse => cases hmem
        · exact ⟨rfl, fun _ h => absurd h List.not_mem_nil⟩
      · rintro ⟨htext, htaken⟩
        cases taken with
        | nil => exact .inr ⟨rfl, htext.symm⟩
        | cons y taken =>
            obtain ⟨rfl, htail⟩ := List.cons.inj htext
            obtain ⟨hx, hothers⟩ := List.forall_mem_cons.mp htaken
            rw [if_pos hx]
            exact .inl (List.mem_map.mpr ⟨_, ih.mpr ⟨htail, hothers⟩, rfl⟩)

variable [DecidableEq α]

def Piece.splits : Piece α → List α → List (List α × List (List α))
  | .word letters, text =>
      if letters <+: text then [(text.drop letters.length, [])] else []
  | .many cls, text => (cuts cls text).map fun c => (c.2, [])
  | .group cls, text =>
      ((cuts cls text).filter fun c => c.1 ≠ []).map fun c => (c.2, [c.1])

theorem Piece.mem_splits {piece : Piece α} {text rest : List α}
    {group : List (List α)} : (rest, group) ∈ piece.splits text ↔
      ∃ taken, text = taken ++ rest ∧ piece.Takes taken group := by
  cases piece with
  | word letters =>
      rw [splits]
      constructor
      · intro hmem
        split at hmem
        case isTrue hprefix =>
          obtain ⟨after, rfl⟩ := hprefix
          rw [List.drop_left, List.mem_singleton] at hmem
          cases hmem
          exact ⟨letters, rfl, .word letters⟩
        case isFalse => cases hmem
      · rintro ⟨taken, rfl, htakes⟩
        cases htakes
        rw [if_pos (List.prefix_append letters rest), List.drop_left]
        exact List.mem_singleton_self _
  | many cls =>
      rw [splits, List.mem_map]
      constructor
      · rintro ⟨⟨taken, rest'⟩, hcut, heq⟩
        cases heq
        obtain ⟨htext, htaken⟩ := mem_cuts.mp hcut
        exact ⟨taken, htext, .many htaken⟩
      · rintro ⟨taken, htext, htakes⟩
        cases htakes with
        | many htaken => exact ⟨_, mem_cuts.mpr ⟨htext, htaken⟩, rfl⟩
  | group cls =>
      rw [splits, List.mem_map]
      constructor
      · rintro ⟨⟨taken, rest'⟩, hcut, heq⟩
        cases heq
        obtain ⟨hcut, hne⟩ := List.mem_filter.mp hcut
        obtain ⟨htext, htaken⟩ := mem_cuts.mp hcut
        exact ⟨taken, htext, .group (of_decide_eq_true hne) htaken⟩
      · rintro ⟨taken, htext, htakes⟩
        cases htakes with
        | group hne htaken =>
            exact ⟨_, List.mem_filter.mpr ⟨mem_cuts.mpr ⟨htext, htaken⟩,
              decide_eq_true hne⟩, rfl⟩

def firstMatch : List (Piece α) → List α → Option (List (List α))
  | [], text => if text = [] then some [] else none
  | piece :: pieces, text =>
      (piece.splits text).findSome? fun split =>
        (firstMatch pieces split.1).map (split.2 ++ ·)

theorem firstMatch_sound {pieces : List (Piece α)} {text : List α}
    {groups : List (List α)} (h : firstMatch pieces text = some groups) :
    Matches pieces text groups := by
  induction pieces generalizing text groups with
  | nil =>
      rw [firstMatch] at h
      split at h
      case isTrue hempty =>
        cases h
        exact hempty ▸ .nil
      case isFalse => cases h
  | cons piece pieces ih =>
      rw [firstMatch] at h
      obtain ⟨⟨rest, group⟩, hsplit, hmap⟩ := List.exists_of_findSome?_eq_some h
      obtain ⟨later, hlater, rfl⟩ := Option.map_eq_some_iff.mp hmap
      obtain ⟨taken, rfl, htakes⟩ := Piece.mem_splits.mp hsplit
      exact .cons htakes (ih hlater)

theorem firstMatch_complete {pieces : List (Piece α)} {text : List α}
    {groups : List (List α)} (h : Matches pieces text groups) :
    ∃ found, firstMatch pieces text = some found := by
  induction h with
  | nil => exact ⟨[], rfl⟩
  | cons taken later ih =>
      obtain ⟨found, hfound⟩ := ih
      rw [firstMatch]
      refine Option.isSome_iff_exists.mp (List.findSome?_isSome_iff.mpr
        ⟨_, Piece.mem_splits.mpr ⟨_, rfl, taken⟩, ?_⟩)
      rw [hfound]
      rfl

/-! ## Patterns that cut a text in one way -/

omit [DecidableEq α]

def MayStart : List (Piece α) → α → Prop
  | [], _ => False
  | .word [] :: pieces, x => MayStart pieces x
  | .word (y :: _) :: _, x => x = y
  | .many cls :: pieces, x => cls x = true ∨ MayStart pieces x
  | .group cls :: _, x => cls x = true

theorem mayStart_of_matches {pieces : List (Piece α)} {x : α} {text : List α}
    {groups : List (List α)} (h : Matches pieces (x :: text) groups) :
    MayStart pieces x := by
  induction pieces generalizing text groups with
  | nil => cases h
  | cons piece pieces ih =>
      generalize hall : x :: text = all at h
      cases h with
      | @cons _ _ taken rest _ _ htakes hlater =>
          cases htakes with
          | word =>
              cases taken with
              | nil =>
                  obtain rfl : x :: text = rest := hall
                  exact ih hlater
              | cons y letters => exact (List.cons.inj hall).1
          | many hcls =>
              cases taken with
              | nil =>
                  obtain rfl : x :: text = rest := hall
                  exact .inr (ih hlater)
              | cons y taken =>
                  obtain ⟨rfl, -⟩ := List.cons.inj hall
                  exact .inl (hcls x List.mem_cons_self)
          | group hne hcls =>
              cases taken with
              | nil => exact absurd rfl hne
              | cons y taken =>
                  obtain ⟨rfl, -⟩ := List.cons.inj hall
                  exact hcls x List.mem_cons_self

/-- No letter that a piece repeats can start what comes after it. -/
def Separated : List (Piece α) → Prop
  | [] => True
  | .word _ :: pieces => Separated pieces
  | .many cls :: pieces | .group cls :: pieces =>
      (∀ x, cls x = true → ¬ MayStart pieces x) ∧ Separated pieces

theorem cut_unique {cls : α → Bool} {first first' rest rest' : List α}
    (heq : first ++ rest = first' ++ rest')
    (hfirst : ∀ x ∈ first, cls x = true) (hfirst' : ∀ x ∈ first', cls x = true)
    (hrest : ∀ x text, rest = x :: text → ¬ cls x = true)
    (hrest' : ∀ x text, rest' = x :: text → ¬ cls x = true) :
    first = first' ∧ rest = rest' := by
  induction first generalizing first' with
  | nil =>
      cases first' with
      | nil => exact ⟨rfl, heq⟩
      | cons y first' =>
          exact absurd (hfirst' y List.mem_cons_self) (hrest y _ heq)
  | cons x first ih =>
      cases first' with
      | nil => exact absurd (hfirst x List.mem_cons_self) (hrest' x _ heq.symm)
      | cons y first' =>
          obtain ⟨rfl, htail⟩ := List.cons.inj heq
          obtain ⟨rfl, hrest⟩ := ih htail (List.forall_mem_cons.mp hfirst).2
            (List.forall_mem_cons.mp hfirst').2
          exact ⟨rfl, hrest⟩

theorem Matches.unique {pieces : List (Piece α)} (separated : Separated pieces)
    {text : List α} {groups groups' : List (List α)}
    (h : Matches pieces text groups) (h' : Matches pieces text groups') :
    groups = groups' := by
  induction h generalizing groups' with
  | nil =>
      cases h'
      rfl
  | @cons piece pieces taken rest group groups htakes hlater ih =>
      generalize hall : taken ++ rest = all at h'
      cases h' with
      | @cons _ _ taken' rest' _ _ htakes' hlater' =>
          cases htakes with
          | word =>
              cases htakes'
              obtain rfl := List.append_cancel_left hall
              rw [ih separated hlater']
          | many hcls =>
              cases htakes' with
              | many hcls' =>
                  obtain ⟨rfl, rfl⟩ := cut_unique hall hcls hcls'
                    (fun x _ hx hmine => separated.1 x hmine
                      (mayStart_of_matches (hx ▸ hlater)))
                    (fun x _ hx hmine => separated.1 x hmine
                      (mayStart_of_matches (hx ▸ hlater')))
                  rw [ih separated.2 hlater']
          | group hne hcls =>
              cases htakes' with
              | group hne' hcls' =>
                  obtain ⟨rfl, rfl⟩ := cut_unique hall hcls hcls'
                    (fun x _ hx hmine => separated.1 x hmine
                      (mayStart_of_matches (hx ▸ hlater)))
                    (fun x _ hx hmine => separated.1 x hmine
                      (mayStart_of_matches (hx ▸ hlater')))
                  rw [ih separated.2 hlater']

/-! ## Matchers -/

/-- It gives the whole text, and what the groups took. -/
structure Finds (matcher : List (Piece α) → List α → Option (List (List α))) :
    Prop where
  sound : ∀ {pieces text found}, matcher pieces text = some found →
    ∃ groups, found = text :: groups ∧ Matches pieces text groups
  complete : ∀ {pieces text groups}, Matches pieces text groups →
    ∃ found, matcher pieces text = some found

theorem finds_firstMatch [DecidableEq α] :
    Finds fun (pieces : List (Piece α)) text =>
      (firstMatch pieces text).map (text :: ·) where
  sound h := by
    obtain ⟨groups, hgroups, rfl⟩ := Option.map_eq_some_iff.mp h
    exact ⟨groups, rfl, firstMatch_sound hgroups⟩
  complete h := by
    obtain ⟨groups, hgroups⟩ := firstMatch_complete h
    exact ⟨_, Option.map_eq_some_iff.mpr ⟨groups, hgroups, rfl⟩⟩

theorem Finds.eq_some_iff
    {matcher : List (Piece α) → List α → Option (List (List α))}
    (h : Finds matcher) {pieces : List (Piece α)} (separated : Separated pieces)
    {text : List α} {found : List (List α)} :
    matcher pieces text = some found ↔
      ∃ groups, found = text :: groups ∧ Matches pieces text groups := by
  refine ⟨h.sound, ?_⟩
  rintro ⟨groups, rfl, hmatch⟩
  obtain ⟨found, hfound⟩ := h.complete hmatch
  obtain ⟨groups', rfl, hmatch'⟩ := h.sound hfound
  rw [hfound, hmatch'.unique separated hmatch]

end Iocore.Foundation
