import CostAnalysis.Proofs.Formula.Arithmetic

/-!
# Simplification decides equality

Two polynomial formulas have the same closed form if and only if they have the
same value wherever their variables are set (`poly_simplify_eq_iff`).  One
direction is that simplification keeps the value.  The other one needs that the
closed form is a normal form: its terms are products of variables in the order
of the monomials, without zero coefficients, and such a polynomial is decided by
its values.

What is a normal form here is the list of terms, not only the function that it
stands for, so that also the text of a closed form depends on nothing but the
values.

**Three steps.**  The closed form of a polynomial formula is ordered
(`Arithmetic.ordered_reduce`), it has the value of the formula
(`IsPolynomial.value_eq`), and an ordered polynomial is decided by its values
(`Poly.Ordered.eq_of_value_eq`).  The hypothesis about notes is used by the
first two: an overflow leaves one.
-/

namespace CostAnalysis.Formula

variable {e e' : Formula}

/-! ## Polynomial formulas -/

/-- An arithmetic formula without summations, of a structural degree that a word
holds: a polynomial in its variables. -/
structure IsPolynomial (e : Formula) : Prop where
  arithmetic : e.Arithmetic
  sumFree : e.sumDepth = 0
  degree_lt : e.degree < 2 ^ 63

/-- A list holds no summation just if its formulas hold none. -/
theorem sumDepthList_eq_zero_iff {es : List Formula} :
    sumDepthList es = 0 ↔ ∀ e ∈ es, e.sumDepth = 0 := by
  induction es with
  | nil => simp [sumDepthList]
  | cons e es ih => rw [sumDepthList, Nat.max_eq_zero_iff, ih, List.forall_mem_cons]

/-- Without summations there are no bounds to ask anything of. -/
theorem Arithmetic.integralBounds (he : e.Arithmetic) (hflat : e.sumDepth = 0) (I : Reading) :
    e.IntegralBounds I := by
  induction he with
  | num | var => trivial
  | plus _ ih =>
      exact allIntegralBounds_of_forall fun e he =>
        ih e he (sumDepthList_eq_zero_iff.mp hflat e he)
  | times _ ih =>
      exact allIntegralBounds_of_forall fun e he =>
        ih e he (sumDepthList_eq_zero_iff.mp hflat e he)
  | minus _ ih => exact ih hflat
  | quotient _ _ _ _ ih => exact ⟨ih (Nat.max_eq_zero_iff.mp hflat).1, trivial⟩
  | raised _ _ ih => exact ⟨ih (Nat.max_eq_zero_iff.mp hflat).1, trivial⟩
  | sumOver => cases hflat

/-! ## The closed form is ordered -/

/-- The terms of a closed form without notes are in order. -/
theorem Arithmetic.ordered_reduce (he : e.Arithmetic) {levels depth : ℕ}
    (hnotes : (reduce levels depth e).notes = []) : (reduce levels depth e).poly.Ordered := by
  rw [poly_reduce_eq_closedForm]
  exact Poly.ordered_iff.mpr
    ((he.listedOver (quiet_of_notes hnotes)).mono fun _ hm => hm.keys)

/-! ## Equality

Both directions go through values: equal closed forms have equal values, and
equal values make equal closed forms.  The mark of an overflow is excluded by
the hypothesis that there are no notes. -/

/-- The closed form of a polynomial formula without notes has its value. -/
theorem IsPolynomial.value_eq (he : e.IsPolynomial) (hnotes : e.simplify.notes = []) {I : Reading}
    (hI : I.ReadsPowers) : e.simplify.poly.value I = e.value I :=
  (he.arithmetic.reduces he.degree_lt).value_eq (Note.logOf_eq_nil hnotes)
    ⟨hI, he.arithmetic.integralBounds he.sumFree I⟩

/-- **Values decide the closed form**, as it is an ordered polynomial in
variables. -/
theorem IsPolynomial.poly_eq (he : e.IsPolynomial) (he' : e'.IsPolynomial)
    (hnotes : e.simplify.notes = []) (hnotes' : e'.simplify.notes = []) {I : Reading}
    (h : ∀ v, e.simplify.poly.value (I.withVars v) = e'.simplify.poly.value (I.withVars v)) :
    e.simplify.poly = e'.simplify.poly := by
  have hreduced := Note.logOf_eq_nil hnotes
  have hreduced' := Note.logOf_eq_nil hnotes'
  have hplain := (he.arithmetic.reduces he.degree_lt _ _ hreduced).plain
  have hplain' := (he'.arithmetic.reduces he'.degree_lt _ _ hreduced').plain
  exact (he.arithmetic.ordered_reduce hreduced).eq_of_value_eq
    (he'.arithmetic.ordered_reduce hreduced')
    (hplain.mono (Nat.le_max_left _ _)) (hplain'.mono (Nat.le_max_right _ _))
    (Poly.exact_of_hasOverflow (hasOverflow_reduce _ _ _))
    (Poly.exact_of_hasOverflow (hasOverflow_reduce _ _ _)) I h

/-- **Simplification decides the equality of polynomials.**  The closed forms of
two polynomial formulas that leave no notes are equal, term by term, just if the
formulas have the same value for all values of the variables; and then the texts
of the closed forms are the same, as they are written term by term and with
common factors taken out. -/
theorem poly_simplify_eq_iff (he : e.IsPolynomial) (he' : e'.IsPolynomial)
    (hnotes : e.simplify.notes = []) (hnotes' : e'.simplify.notes = []) {I : Reading}
    (hI : I.ReadsPowers) :
    (e.simplify.poly = e'.simplify.poly ↔
      ∀ v : String → ℚ, e.value (I.withVars v) = e'.value (I.withVars v)) ∧
    ((∀ v : String → ℚ, e.value (I.withVars v) = e'.value (I.withVars v)) →
      e.simplify.poly.text = e'.simplify.poly.text ∧
      e.simplify.poly.compactText = e'.simplify.poly.compactText) := by
  have hvalue := fun v => he.value_eq hnotes (hI.withVars v)
  have hvalue' := fun v => he'.value_eq hnotes' (hI.withVars v)
  have hpoly : (∀ v, e.value (I.withVars v) = e'.value (I.withVars v)) →
      e.simplify.poly = e'.simplify.poly := fun h =>
    he.poly_eq he' hnotes hnotes' fun v => by rw [hvalue v, hvalue' v, h v]
  refine ⟨⟨fun h v => ?_, hpoly⟩, fun h => ⟨congrArg Poly.text (hpoly h), ?_⟩⟩
  · rw [← hvalue v, ← hvalue' v, h]
  · exact congrArg Poly.compactText (hpoly h)

/-- Half the square of a sum. -/
def halvedSquare : Formula :=
  .over (.raised (.plus [.var "n", .var "m"]) (.num (.exact (2 : ℕ)))) (.num (.exact 2))

/-- The same, multiplied out and in another order. -/
def expandedSquare : Formula :=
  .plus [.times [.var "m", .var "n"], .over (.raised (.var "m") (.num (.exact (2 : ℕ))))
    (.num (.exact 2)), .over (.times [.var "n", .var "n"]) (.num (.exact 2))]

/-- Half the square of a sum and the same multiplied out: the closed forms are
equal. -/
theorem poly_simplify_eq_iff_halvedSquare :
    halvedSquare.simplify.notes = [] ∧ expandedSquare.simplify.notes = [] ∧
      halvedSquare.simplify.poly = expandedSquare.simplify.poly := by
  have hnotes : halvedSquare.simplify.notes = [] := by decide +kernel
  have hnotes' : expandedSquare.simplify.notes = [] := by decide +kernel
  have hhalved : halvedSquare.IsPolynomial := by
    refine ⟨.quotient (.raised (.plus fun e he => ?_) (by decide)) (by decide) (by decide)
      (by decide), rfl, by decide⟩
    simp only [List.mem_cons, List.not_mem_nil, or_false] at he
    rcases he with rfl | rfl
    · exact .var _
    · exact .var _
  have hexpanded : expandedSquare.IsPolynomial := by
    refine ⟨.plus fun e he => ?_, rfl, by decide⟩
    simp only [List.mem_cons, List.not_mem_nil, or_false] at he
    rcases he with rfl | rfl | rfl
    · exact .times (by simp [Arithmetic.var])
    · exact .quotient (.raised (.var _) (by decide)) (by decide) (by decide) (by decide)
    · exact .quotient (.times (by simp [Arithmetic.var])) (by decide) (by decide) (by decide)
  have hpowers : (sizedReading 0).ReadsPowers := fun x k => by simp [sizedReading]
  refine ⟨hnotes, hnotes', (poly_simplify_eq_iff hhalved hexpanded hnotes hnotes' hpowers).1.mpr ?_⟩
  intro v
  have hsquare : ∀ x, ((sizedReading 0).withVars v).pow x ((2 : ℕ) : ℚ) = x ^ 2 := fun x =>
    hpowers.withVars v x 2
  simp only [halvedSquare, expandedSquare, value, sumValue, productValue, Reading.scalar_exact,
    hsquare]
  ring

end CostAnalysis.Formula
