import CostAnalysis.Proofs.Formula.ClosedForm
import CostAnalysis.Proofs.Formula.Grammar
import CostAnalysis.Proofs.Formula.Operands
import CostAnalysis.Proofs.Poly.Atoms

/-!
# Formulas without functions

The formulas that are built from numbers and variables by arithmetic alone, with
any powers.  They are what a text spells in which no name stands before a
parenthesis (`Spells.isAlgebraic`), and their closed forms have no atoms but
variables and what quotients and powers make around them
(`IsAlgebraic.atomsIn_closedForm`).  In particular there is no logarithm in
them.

**What this is for.**  The text of a work may have a form that the notation of
recurrences does not know.  Whatever is read of such a text is a formula of this
kind, as long as no call comes about, and then its class of growth is one
without logarithms.  Nothing has to be said about which formula it is.
-/

namespace CostAnalysis.Formula

open Reader Text

/-- The formulas that are built from numbers and variables by sums, products,
opposites, quotients and powers. -/
inductive IsAlgebraic : Formula → Prop
  | num (v : Scalar) : IsAlgebraic (.num v)
  | var (name : String) : IsAlgebraic (.var name)
  | plus {ts : List Formula} (hts : ∀ e ∈ ts, IsAlgebraic e) : IsAlgebraic (.plus ts)
  | times {fs : List Formula} (hfs : ∀ e ∈ fs, IsAlgebraic e) : IsAlgebraic (.times fs)
  | minus {a : Formula} (ha : IsAlgebraic a) : IsAlgebraic (.minus a)
  | quotient {a b : Formula} (ha : IsAlgebraic a) (hb : IsAlgebraic b) : IsAlgebraic (.over a b)
  | raised {a b : Formula} (ha : IsAlgebraic a) (hb : IsAlgebraic b) : IsAlgebraic (.raised a b)

/-- To be algebraic is a property of operands, by its definition. -/
theorem operandwise_isAlgebraic : Operandwise IsAlgebraic where
  plus := ⟨fun h => by cases h; assumption, .plus⟩
  times := ⟨fun h => by cases h; assumption, .times⟩
  minus := ⟨fun h => by cases h; assumption, .minus⟩
  num _ := .num _

namespace IsAlgebraic

variable {a b e : Formula}

theorem add (ha : a.IsAlgebraic) (hb : b.IsAlgebraic) : (a.add b).IsAlgebraic :=
  operandwise_isAlgebraic.add ha hb

theorem neg (ha : a.IsAlgebraic) : a.neg.IsAlgebraic :=
  operandwise_isAlgebraic.neg_iff.mpr ha

theorem sub (ha : a.IsAlgebraic) (hb : b.IsAlgebraic) : (a.sub b).IsAlgebraic :=
  ha.add hb.neg

theorem mul (ha : a.IsAlgebraic) (hb : b.IsAlgebraic) : (a.mul b).IsAlgebraic :=
  operandwise_isAlgebraic.mul ha hb

theorem div (ha : a.IsAlgebraic) (hb : b.IsAlgebraic) : (a.div b).IsAlgebraic := by
  unfold Formula.div
  split
  · exact ha
  · split
    · split
      · exact .num _
      · exact .quotient ha hb
    · exact .quotient ha hb

theorem pow (ha : a.IsAlgebraic) (hb : b.IsAlgebraic) : (a.pow b).IsAlgebraic := by
  unfold Formula.pow
  split
  · exact ha
  · split
    · exact .num 1
    · exact .raised ha hb

end IsAlgebraic

/-! ## Texts without calls -/

/-- An opening parenthesis stands behind no name. -/
def NoCall (a b : Char) : Prop :=
  b = '(' → isNamePart a = false

/-- A call has a name before its parenthesis. -/
theorem not_isChain_call {name rest : List Char} (hne : name ≠ [])
    (hname : ∀ c ∈ name, isNamePart c = true) : ¬ (name ++ '(' :: rest).IsChain NoCall := by
  intro h
  have hlast := (List.isChain_append.mp h).2.2 (name.getLast hne)
    (List.getLast?_eq_some_getLast hne) '(' rfl rfl
  rw [hname _ (List.getLast_mem hne)] at hlast
  cases hlast

/-- **A text without calls spells a formula without functions.** -/
theorem Spells.isAlgebraic {level : Level} {text : List Char} {e : Formula}
    (h : Spells level text e) (hcalls : text.IsChain NoCall) : e.IsAlgebraic := by
  -- every rule with a name before a parenthesis is excluded by the text alone
  have hcall : ∀ {name rest : List Char}, IsName name → ¬ (name ++ '(' :: rest).IsChain NoCall := by
    intro name rest hname
    refine not_isChain_call ?_ hname.all
    obtain ⟨c, more, rfl, -⟩ := hname
    exact List.cons_ne_nil c more
  induction h with
  | number => exact .num _
  | name => exact .var _
  | fragment =>
      refine absurd hcalls (not_isChain_call (by decide) ?_)
      exact List.all_eq_true.mp (by decide)
  | call hname => exact absurd hcalls (hcall hname)
  | call₂ hname => exact absurd hcalls (hcall hname)
  | summation =>
      refine absurd hcalls (not_isChain_call (by decide) ?_)
      exact List.all_eq_true.mp (by decide)
  | group _ ih => exact ih hcalls.left_of_append.tail
  | base _ ih => exact ih hcalls
  | power _ _ _ iha ihb =>
      exact (iha hcalls.left_of_append).pow (ihb hcalls.right_of_append.right_of_append)
  | negative _ ih => exact (ih hcalls.tail).neg
  | factor _ ih => exact ih hcalls
  | times _ _ iha ihb => exact (iha hcalls.left_of_append).mul (ihb hcalls.right_of_append.tail)
  | «over» _ _ iha ihb => exact (iha hcalls.left_of_append).div (ihb hcalls.right_of_append.tail)
  | addend _ ih => exact ih hcalls
  | plus _ _ iha ihb => exact (iha hcalls.left_of_append).add (ihb hcalls.right_of_append.tail)
  | minus _ _ iha ihb => exact (iha hcalls.left_of_append).sub (ihb hcalls.right_of_append.tail)

/-! ## Closed forms -/

/-- A node that overflowed is quoted. -/
theorem atomsIn_guardOverflow {K : Atom → Prop} (hK : Atom.Closed K) (e : Formula) {r : Simplified}
    (hr : r.poly.AtomsIn K) : (guardOverflow e r).poly.AtomsIn K := by
  unfold guardOverflow
  split
  · exact .unknown hK _
  · exact hr

/-- **The closed form of a formula without functions** has no atoms but
variables and what quotients and powers make. -/
theorem IsAlgebraic.atomsIn_closedForm {K : Atom → Prop} (hK : Atom.Closed K)
    (hvar : ∀ name, K (.var name)) {e : Formula} (he : e.IsAlgebraic) :
    e.closedForm.AtomsIn K := by
  induction he with
  | num v => exact atomsIn_guardOverflow hK _ (Poly.atomsIn_constant v)
  | var name => exact Poly.atomsIn_ofAtom (hvar name)
  | @plus ts _ ih =>
      refine atomsIn_guardOverflow hK _ ?_
      rw [poly_reduceSum_eq]
      exact List.foldlRecOn ts _ Poly.atomsIn_zero fun _ hacc e he => hacc.add (ih e he)
  | @times fs _ ih =>
      refine atomsIn_guardOverflow hK _ ?_
      rw [poly_reduceProduct_eq]
      exact List.foldlRecOn fs _ (Poly.atomsIn_constant 1) fun _ hacc e he => hacc.mul (ih e he)
  | minus _ ih =>
      refine atomsIn_guardOverflow hK _ ?_
      exact Poly.AtomsIn.neg ih
  | quotient _ _ iha ihb =>
      refine atomsIn_guardOverflow hK _ ?_
      simp only [combine, poly_reduce_eq_closedForm]
      exact iha.div hK ihb
  | raised _ _ iha ihb =>
      refine atomsIn_guardOverflow hK _ ?_
      simp only [combine, poly_reduce_eq_closedForm]
      exact iha.power hK ihb

end CostAnalysis.Formula
