import CostAnalysis.Cost.Solution
import CostAnalysis.Proofs.Exactness
import CostAnalysis.Proofs.Formula.Operands
import CostAnalysis.Proofs.Poly.Sum

/-!
# Where the mark of an overflow comes from

The constructors of formulas fold numbers, and a folded number may not fit its
word.  The mark of an overflow must not stand in its place then: its text
`overflow` would be read back as a variable of this name.  So sums, products and
opposites fold numbers only where the result fits, and leave the operands as
they are otherwise; powers, logarithms and summations fold nothing, and a
minimum or maximum of two numbers is one of them.

**Quotients miss this.**  The quotient of two numbers is folded whenever the
divisor has a reciprocal, and the product with the reciprocal may be the mark.
Among operands without the mark it is the only way to one
(`hasOverflow_constructors`).

**Exactly when.**  A divisor is folded with a number before it if it is neither
zero nor one and fits its words, so that it has a reciprocal.  The mark is there
if the lowest terms of the quotient do not fit (`hasOverflow_div_iff`).
-/

namespace CostAnalysis

namespace Formula

/-! ## Formulas without the mark -/

/-- No number in the formula is the mark of an overflow. -/
def Unmarked (e : Formula) : Prop :=
  e.hasOverflow = false

namespace Unmarked

variable {a b c : Formula}

theorem zero : Unmarked Formula.zero := rfl

theorem one : Unmarked Formula.one := rfl

theorem num {v : Scalar} (hv : v.isOverflow = false) : Unmarked (.num v) := hv

/-- A constructor with two operands. -/
theorem both (ha : a.Unmarked) (hb : b.Unmarked) : (a.hasOverflow || b.hasOverflow) = false :=
  Bool.or_eq_false_iff.mpr ⟨ha, hb⟩

/-- What a formula without the mark is as a number is not the mark. -/
theorem isOverflow_asNum? (ha : a.Unmarked) {v : Scalar} (hv : a.asNum? = some v) :
    v.isOverflow = false := by
  cases a with
  | num w =>
      obtain rfl := Option.some.inj hv
      exact ha
  | resolved p => exact (Poly.exact_iff_of_asConstant? hv).mp (Poly.exact_of_hasOverflow ha)
  | _ => cases hv

/-! ## The constructors

One lemma for each constructor, all of the same form: from operands without the
mark, none comes.  For sums and products that is a property of operands, for the
others it is seen from the cases of their definitions. -/

theorem add (ha : a.Unmarked) (hb : b.Unmarked) : (a.add b).Unmarked :=
  operandwise_hasOverflow.add ha hb

theorem mul (ha : a.Unmarked) (hb : b.Unmarked) : (a.mul b).Unmarked :=
  operandwise_hasOverflow.mul ha hb

theorem scale (ha : a.Unmarked) {factor : Scalar} (hfactor : factor.isOverflow = false) :
    (a.scale factor).Unmarked :=
  mul (num hfactor) ha

/-- The opposite of a number is folded only if it is not the mark. -/
theorem neg (ha : a.Unmarked) : a.neg.Unmarked :=
  operandwise_hasOverflow.neg_iff.mpr ha

theorem sub (ha : a.Unmarked) (hb : b.Unmarked) : (a.sub b).Unmarked :=
  ha.add hb.neg

/-- Powers fold nothing but the exponents zero and one. -/
theorem pow (ha : a.Unmarked) (hb : b.Unmarked) : (a.pow b).Unmarked := by
  rw [Formula.pow]
  split
  · exact ha
  · split
    · exact one
    · exact both ha hb

theorem log (ha : a.Unmarked) : a.log.Unmarked := ha

/-- A minimum of two numbers is one of them. -/
theorem min (ha : a.Unmarked) (hb : b.Unmarked) : (a.min b).Unmarked := by
  rw [Formula.min]
  split
  · exact zero
  · split
    · exact ha
    · split
      · next x y hx hy =>
          rcases Scalar.least_eq x y with h | h
          · rw [h]
            exact num (ha.isOverflow_asNum? hx)
          · rw [h]
            exact num (hb.isOverflow_asNum? hy)
      · exact both ha hb

theorem max (ha : a.Unmarked) (hb : b.Unmarked) : (a.max b).Unmarked := by
  rw [Formula.max]
  split
  · exact hb
  · split
    · exact ha
    · split
      · next x y hx hy =>
          rcases Scalar.greatest_eq x y with h | h
          · rw [h]
            exact num (ha.isOverflow_asNum? hx)
          · rw [h]
            exact num (hb.isOverflow_asNum? hy)
      · exact both ha hb

/-- Summations fold only those that are plainly zero. -/
theorem sum (ha : a.Unmarked) (hb : b.Unmarked) (hc : c.Unmarked) (index : String) :
    (Formula.sum a index b c).Unmarked := by
  rw [Formula.sum]
  split
  · exact zero
  · exact Bool.or_eq_false_iff.mpr ⟨both ha hb, hc⟩

/-- A number is one exactly if its value is. -/
theorem isOne_iff {q : ℚ} (hb : b.asNum? = some (.exact q)) : b.isOne = true ↔ q = 1 := by
  rw [isOne, hb]
  exact Scalar.isOne_exact q

/-- A quotient holds the mark exactly if it is folded and does not fit. -/
theorem hasOverflow_div_iff (ha : a.Unmarked) (hb : b.Unmarked) :
    (a.div b).hasOverflow = true ↔
      ∃ p q : ℚ, a.asNum? = some (.exact p) ∧ b.asNum? = some (.exact q) ∧
        q ≠ 0 ∧ q ≠ 1 ∧ (Scalar.exact q).Fits ∧ ¬ (Scalar.exact (p / q)).Fits := by
  have hover : (Formula.over a b).hasOverflow = false := both ha hb
  constructor
  · intro h
    rw [div] at h
    split at h
    · rw [ha] at h
      cases h
    -- only two numbers are folded, and the mark is there if their quotient does
    -- not fit
    · next hone =>
        split at h
        · next x y hx hy =>
            split at h
            · next r hr =>
                cases r with
                | exact r => cases h
                | overflow =>
                    cases x with
                    | overflow => cases ha.isOverflow_asNum? hx
                    | exact p =>
                        cases y with
                        | overflow => cases hb.isOverflow_asNum? hy
                        | exact q =>
                            obtain ⟨hq, hfits, hquotient⟩ := Scalar.div?_eq_overflow_iff.mp hr
                            exact ⟨p, q, hx, hy, hq, fun hq => hone ((isOne_iff hy).mpr hq), hfits,
                              hquotient⟩
            · rw [hover] at h
              cases h
        · rw [hover] at h
          cases h
  · rintro ⟨p, q, hx, hy, hq, hone, hfits, hquotient⟩
    have hfolded := Scalar.div?_eq_overflow_iff.mpr ⟨hq, hfits, hquotient⟩
    rw [div, if_neg fun h => hone ((isOne_iff hy).mp h), hx, hy]
    simp only [hfolded]
    rfl

end Unmarked

/-- **Quotients alone make the mark.**  From operands without the mark of an
overflow every constructor makes a formula without it, except for a quotient of
two numbers with a divisor that has a reciprocal: it holds the mark exactly if
it does not fit its word. -/
theorem hasOverflow_constructors {a b c : Formula} {factor : Scalar} (index : String)
    (ha : a.hasOverflow = false) (hb : b.hasOverflow = false) (hc : c.hasOverflow = false)
    (hfactor : factor.isOverflow = false) :
    (a.add b).hasOverflow = false ∧ (a.sub b).hasOverflow = false ∧ a.neg.hasOverflow = false ∧
      (a.mul b).hasOverflow = false ∧ (a.scale factor).hasOverflow = false ∧
      (a.pow b).hasOverflow = false ∧ a.log.hasOverflow = false ∧ (a.min b).hasOverflow = false ∧
      (a.max b).hasOverflow = false ∧ (sum a index b c).hasOverflow = false ∧
      ((a.div b).hasOverflow = true ↔
        ∃ p q : ℚ, a.asNum? = some (.exact p) ∧ b.asNum? = some (.exact q) ∧
          q ≠ 0 ∧ q ≠ 1 ∧ (Scalar.exact q).Fits ∧ ¬ (Scalar.exact (p / q)).Fits) :=
  ⟨Unmarked.add ha hb, Unmarked.sub ha hb, Unmarked.neg ha, Unmarked.mul ha hb,
    Unmarked.scale ha hfactor, Unmarked.pow ha hb, Unmarked.log ha, Unmarked.min ha hb,
    Unmarked.max ha hb, Unmarked.sum ha hb hc index, Unmarked.hasOverflow_div_iff ha hb⟩

/-- At the greatest number, a sum, a product and a multiple do not fit and are
kept as they are. -/
theorem hasOverflow_constructors_greatest :
    ((int (2 ^ 127 - 1)).add (int (2 ^ 127 - 1))).hasOverflow = false ∧
      ((int (2 ^ 127 - 1)).mul (int (2 ^ 127 - 1))).hasOverflow = false ∧
      ((int (2 ^ 127 - 1)).scale (.ofInt 2)).hasOverflow = false ∧
      (sum (int (2 ^ 127 - 1)) "i" (int (2 ^ 127 - 1)) (var "n")).hasOverflow = false := by
  have hgreatest : (int (2 ^ 127 - 1)).hasOverflow = false := rfl
  have hfactor : (Scalar.ofInt 2).isOverflow = false := rfl
  have hstop : (var "n").hasOverflow = false := rfl
  obtain ⟨hadd, -, -, hmul, hscale, -, -, -, -, hsum, -⟩ :=
    hasOverflow_constructors "i" hgreatest hgreatest hstop hfactor
  exact ⟨hadd, hmul, hscale, hsum⟩

/-- Half of the least positive number is folded into the mark.  Its text is read
back as a variable, and a cost with this text is solved exactly. -/
theorem hasOverflow_div_folded :
    (num (.exact (1 / (2 ^ 127 - 1)))).hasOverflow = false ∧ (int 2).hasOverflow = false ∧
      ((num (.exact (1 / (2 ^ 127 - 1)))).div (int 2)).hasOverflow = true ∧
      ((num (.exact (1 / (2 ^ 127 - 1)))).div (int 2)).text = "overflow" ∧
      read? "overflow" = some (var "overflow") ∧
      (Solution.ofTexts "overflow" "overflow" "overflow").confidence = .exact := by
  refine ⟨rfl, rfl, by decide +kernel, by decide +kernel, rfl, by decide +kernel⟩

end Formula

end CostAnalysis
