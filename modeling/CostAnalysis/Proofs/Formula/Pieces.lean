import CostAnalysis.Algebra.Formula.Reader
import CostAnalysis.Proofs.Text.Scan
import Mathlib.Algebra.Order.Ring.Int

/-!
# Pieces of a text

A text is cut at the plus signs outside of parentheses.  `IsTopLevelPiece` says
what a piece is without the cutting: a part between two such signs, or between
one of them and an end of the text, with none inside.  These are the pieces
(`mem_topLevelPieces_iff`), also where parentheses are closed that were not
open: outside is where as many have been opened as closed.

What is said of pieces is proved by `pieces_induction`, which takes one after
the other off the front of a text.

**Nesting below zero.**  A piece may close parentheses that were not opened in
it, and then what stands behind it is outside all the same.  So the depth is not
a number of open parentheses but a difference, which may be negative, and a sign
is outside where it is zero.
-/

namespace CostAnalysis.Formula

open Text

variable {text piece front back : List Char} {depth : ℤ}

/-! ## Pieces

The definition is by the two sides of a piece: each is an end of the text or a
plus sign outside of parentheses.  From it follow the two ways in which pieces
are found, at the front and behind a sign. -/

/-- No plus sign stands outside of parentheses, where `depth` of them are open
before the text. -/
def NoPlusOutside (depth : ℤ) (text : List Char) : Prop :=
  ∀ front back, text = front ++ '+' :: back → depth + nesting front ≠ 0

/-- A part of a text between plus signs outside of parentheses. -/
def IsTopLevelPiece (text piece : List Char) : Prop :=
  ∃ front back, text = front ++ (piece ++ back) ∧
    (front = [] ∨ ∃ front', front = front' ++ ['+'] ∧ nesting front' = 0) ∧
    (back = [] ∨ ∃ back', back = '+' :: back' ∧ nesting (front ++ piece) = 0) ∧
    NoPlusOutside (nesting front) piece

/-- A text without a plus sign outside of parentheses is a piece. -/
theorem isTopLevelPiece_self (h : NoPlusOutside 0 text) : IsTopLevelPiece text text :=
  ⟨[], [], by simp, Or.inl rfl, Or.inl rfl, h⟩

theorem isTopLevelPiece_front (hfront : nesting front = 0) (h : NoPlusOutside 0 front) :
    IsTopLevelPiece (front ++ '+' :: back) front :=
  ⟨[], '+' :: back, rfl, Or.inl rfl, Or.inr ⟨back, rfl, hfront⟩, h⟩

/-- A piece of the rest is one of the whole, if as many parentheses were opened
before it as closed.
-/
theorem IsTopLevelPiece.behind (h : IsTopLevelPiece back piece) (hfront : nesting front = 0) :
    IsTopLevelPiece (front ++ '+' :: back) piece := by
  obtain ⟨f, b, rfl, hf, hb, hpiece⟩ := h
  have hnesting : nesting (front ++ '+' :: f) = nesting f := by
    rw [nesting_append, hfront, nesting_cons, nesting_plus, zero_add, zero_add]
  refine ⟨front ++ '+' :: f, b, by simp, Or.inr ?_, ?_, by rwa [hnesting]⟩
  · rcases hf with rfl | ⟨f', rfl, hf'⟩
    · exact ⟨front, rfl, hfront⟩
    · refine ⟨front ++ '+' :: f', by simp, ?_⟩
      rw [nesting_append, hfront, nesting_cons, nesting_plus, hf', zero_add, zero_add]
  · rwa [nesting_append, hnesting, ← nesting_append]

/-- The text up to its first plus sign outside of parentheses, if there is
one. -/
theorem exists_first_plus (depth : ℤ) (text : List Char) :
    NoPlusOutside depth text ∨ ∃ front back, text = front ++ '+' :: back ∧
      depth + nesting front = 0 ∧ NoPlusOutside depth front := by
  induction text generalizing depth with
  | nil => exact Or.inl fun front back heq => by simp at heq
  | cons c text ih =>
      -- a character before a text is no plus sign outside of parentheses
      have hcons : ∀ {more : List Char}, ¬(c = '+' ∧ depth = 0) →
          NoPlusOutside (depth + nesting [c]) more → NoPlusOutside depth (c :: more) := by
        intro more hc hmore front back heq
        cases front with
        | nil =>
            obtain ⟨rfl, -⟩ := List.cons.inj heq
            exact fun hzero => hc ⟨rfl, by simpa using hzero⟩
        | cons d front =>
            obtain ⟨rfl, rfl⟩ := List.cons.inj heq
            have hne := hmore front back rfl
            rwa [nesting_cons, ← add_assoc]
      by_cases hc : c = '+' ∧ depth = 0
      · obtain ⟨rfl, rfl⟩ := hc
        exact Or.inr ⟨[], text, rfl, rfl, fun front back heq => by simp at heq⟩
      · rcases ih (depth + nesting [c]) with htext | ⟨front, back, rfl, hzero, hfront⟩
        · exact Or.inl (hcons hc htext)
        · refine Or.inr ⟨c :: front, back, rfl, ?_, hcons hc hfront⟩
          rwa [nesting_cons, ← add_assoc]

/-- What holds of texts in one piece, and of texts with one more piece before
them, holds of all. -/
theorem pieces_induction {motive : List Char → Prop}
    (whole : ∀ text, NoPlusOutside 0 text → motive text)
    (plus : ∀ front back, nesting front = 0 → NoPlusOutside 0 front → motive back →
      motive (front ++ '+' :: back)) (text : List Char) : motive text := by
  induction hlength : text.length using Nat.strong_induction_on generalizing text with
  | _ n ih =>
      rcases exists_first_plus 0 text with htext | ⟨front, back, rfl, hzero, hfront⟩
      · exact whole text htext
      · have hshorter : back.length < n := by
          simp at hlength
          omega
        exact plus front back (by simpa using hzero) hfront (ih _ hshorter back rfl)

/-! ## Cutting -/

/-- There is always a piece. -/
theorem topLevelPieces_ne_nil (depth : ℤ) (text : List Char) : topLevelPieces depth text ≠ [] := by
  cases text with
  | nil => simp [topLevelPieces]
  | cons c text =>
      rw [topLevelPieces]
      split
      · simp
      · dsimp only
        split
        · simp
        · simp

/-- Cutting at a plus sign outside of parentheses. -/
theorem topLevelPieces_plus (text : List Char) :
    topLevelPieces 0 ('+' :: text) = [] :: topLevelPieces 0 text := rfl

/-- Any other character belongs to the first piece. -/
theorem topLevelPieces_cons {c : Char} (hc : ¬(c = '+' ∧ depth = 0)) {pieces : List (List Char)}
    (h : topLevelPieces (depth + nesting [c]) text = piece :: pieces) :
    topLevelPieces depth (c :: text) = (c :: piece) :: pieces := by
  have hdeeper : (if c == '(' then depth + 1 else if c == ')' then depth - 1 else depth) =
      depth + nesting [c] := by
    simp only [nesting, beq_iff_eq]
    split
    · next hopen => simp [hopen]
    · next hopen =>
        split
        · next hclose => simp [hclose, sub_eq_add_neg]
        · next hclose => simp [hopen, hclose]
  rw [topLevelPieces, if_neg (by simpa using hc)]
  simp only [hdeeper, h]

/-- The pieces of a text are those before such a sign and those behind it. -/
theorem topLevelPieces_append (h : depth + nesting front = 0) :
    topLevelPieces depth (front ++ '+' :: back) =
      topLevelPieces depth front ++ topLevelPieces 0 back := by
  induction front generalizing depth with
  | nil =>
      obtain rfl : depth = 0 := by simpa using h
      rfl
  | cons c front ih =>
      by_cases hc : c = '+' ∧ depth = 0
      · obtain ⟨rfl, rfl⟩ := hc
        rw [nesting_cons, nesting_plus, zero_add] at h
        rw [List.cons_append, topLevelPieces_plus, topLevelPieces_plus, ih h, List.cons_append]
      · rw [nesting_cons, ← add_assoc] at h
        obtain ⟨piece, pieces, hpieces⟩ :=
          List.exists_cons_of_ne_nil (topLevelPieces_ne_nil (depth + nesting [c]) front)
        rw [topLevelPieces_cons hc hpieces, List.cons_append,
          topLevelPieces_cons hc (by rw [ih h, hpieces, List.cons_append]), List.cons_append]

/-- Without such a sign there is one piece. -/
theorem topLevelPieces_of_noPlusOutside (h : NoPlusOutside depth text) :
    topLevelPieces depth text = [text] := by
  induction text generalizing depth with
  | nil => rfl
  | cons c text ih =>
      have hc : ¬(c = '+' ∧ depth = 0) := by
        rintro ⟨rfl, rfl⟩
        exact h [] text rfl rfl
      refine topLevelPieces_cons hc (ih fun front back heq => ?_)
      have hne := h (c :: front) back (by rw [heq, List.cons_append])
      rwa [nesting_cons, ← add_assoc] at hne

/-- **The pieces** that a text is cut into. -/
theorem mem_topLevelPieces_iff : piece ∈ topLevelPieces 0 text ↔ IsTopLevelPiece text piece := by
  constructor
  · induction text using pieces_induction with
    | whole text htext =>
        rw [topLevelPieces_of_noPlusOutside htext, List.mem_singleton]
        rintro rfl
        exact isTopLevelPiece_self htext
    | plus front back hzero hfront ih =>
        rw [topLevelPieces_append (by simpa using hzero), topLevelPieces_of_noPlusOutside hfront,
          List.singleton_append, List.mem_cons]
        rintro (rfl | hpiece)
        · exact isTopLevelPiece_front hzero hfront
        · exact (ih hpiece).behind hzero
  · rintro ⟨front, back, rfl, hfront, hback, hpiece⟩
    have hzero : nesting front = 0 := by
      rcases hfront with rfl | ⟨front', rfl, hzero⟩
      · rfl
      · rw [nesting_append, hzero, nesting_plus, add_zero]
    rw [hzero] at hpiece
    rw [nesting_append, hzero] at hback
    -- a piece is found at the front of what it begins, and then behind anything
    have hmem : piece ∈ topLevelPieces 0 (piece ++ back) := by
      rcases hback with rfl | ⟨back', rfl, hzero'⟩
      · simp [topLevelPieces_of_noPlusOutside hpiece]
      · simp [topLevelPieces_append hzero', topLevelPieces_of_noPlusOutside hpiece]
    rcases hfront with rfl | ⟨front', rfl, hzero'⟩
    · exact hmem
    · rw [List.append_assoc, List.singleton_append, topLevelPieces_append (by simpa using hzero')]
      exact List.mem_append_right _ hmem

end CostAnalysis.Formula
