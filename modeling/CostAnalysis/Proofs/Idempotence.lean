import CostAnalysis.Cost.Solution
import CostAnalysis.Proofs.Poly.Factored

/-!
# Solving the text of a solution

The exact text of a solution is a formula again, and solving it gives the same
text if it is read as the closed form that it was written for.  Two things are
needed for that.

* The atoms are elementary.  A minimum, for one, is folded if one side of it is
  the number zero, but only where the formula is built: the minimum of `n - n`
  and `m` is written as `Min(0, m)`, and that is read as zero
  (`exact_again_cancelledMin`).
* The coefficients are fractions over one denominator for which the numerators
  fit.  The factored text multiplies by the denominator before it divides by it.

Both are met by what solving commonly gives: sums of powers over a small
denominator, and beside them exponentials, logarithms and roots of variables.
-/

namespace CostAnalysis

/-- A solution whose closed form is read back from its text. -/
structure CaseSolution.IsElementary (s : CaseSolution) : Prop where
  elementary : s.poly.Elementary
  hasCommonDenominator : s.poly.HasCommonDenominator

/-- **Solving the text of a closed form** gives the closed form. -/
theorem CaseSolution.IsElementary.poly_ofText_exact {s : CaseSolution} (hs : s.IsElementary) :
    (ofText s.exact).poly = s.poly := by
  obtain ⟨e, hread, hclosed⟩ := hs.elementary.exists_compact (fun _ _ _ => trivial)
    (hs.elementary.fitsOverContent hs.hasCommonDenominator)
  have hlenient : Formula.readLenient s.exact = (e, []) := by
    rw [Formula.readLenient, exact, hread.read?_eq]
  rw [ofText, hlenient]
  exact hclosed.closedForm_eq

namespace Solution

/-- Solves the exact texts of a solution. -/
def again (s : Solution) : Solution :=
  ofTexts s.best.exact s.average.exact s.worst.exact

variable {best average worst : String}

/-- **Solving is idempotent on exact texts**, as long as the closed forms are
elementary. -/
theorem exact_again (hbest : (CaseSolution.ofText best).IsElementary)
    (haverage : (CaseSolution.ofText average).IsElementary)
    (hworst : (CaseSolution.ofText worst).IsElementary) :
    (ofTexts best average worst).again.best.exact = (ofTexts best average worst).best.exact ∧
      (ofTexts best average worst).again.average.exact =
        (ofTexts best average worst).average.exact ∧
      (ofTexts best average worst).again.worst.exact = (ofTexts best average worst).worst.exact :=
  ⟨congrArg Poly.compactText hbest.poly_ofText_exact,
    congrArg Poly.compactText haverage.poly_ofText_exact,
    congrArg Poly.compactText hworst.poly_ofText_exact⟩

/-! ## Closed forms that are read back, and one that is not -/

/-- A closed form given by its terms, with the coefficients as fractions over
one denominator. -/
theorem isElementary_of_terms {text : String} {ts : List (Monomial × Scalar)} {d : ℕ}
    (hpoly : (CaseSolution.ofText text).poly = .ofTerms ts) (hd : d ≠ 0)
    (hfits : Scalar.fits d = true) (hsorted : Assoc.Sorted ts)
    (hts : ∀ t ∈ ts, t.1.Elementary ∧
      ∃ z : ℤ, t.2 = .exact (z / d) ∧ z ≠ 0 ∧ Scalar.fits z = true) :
    (CaseSolution.ofText text).IsElementary := by
  have hterms : (CaseSolution.ofText text).poly.terms = ts := by
    rw [hpoly]
    rfl
  refine ⟨⟨?_, ?_, ?_, ?_⟩, d, hd, hfits, ?_⟩ <;> rw [hterms]
  · exact fun t ht => (hts t ht).1
  · intro t ht
    obtain ⟨-, z, hz, -, hzfits⟩ := hts t ht
    have hquotient := Scalar.fits_div (Int.natCast_ne_zero.mpr hd) hzfits hfits
    rwa [Int.cast_natCast, ← hz] at hquotient
  · intro t ht
    obtain ⟨-, z, hz, hz0, -⟩ := hts t ht
    rw [hz]
    exact Scalar.isZero_exact_of_ne
      (div_ne_zero (Int.cast_ne_zero.mpr hz0) (Nat.cast_ne_zero.mpr hd))
  · exact hsorted
  · intro t ht
    obtain ⟨-, z, hz, -, hzfits⟩ := hts t ht
    exact ⟨z, hz, hzfits⟩

/-- An exponential and a root beside each other: elementary, and with a common
denominator. -/
theorem isElementary_exponential : (CaseSolution.ofText "2**n - sqrt(n)/2").IsElementary := by
  have hn : Formula.IsName "n".toList := ⟨'n', [], by decide, by decide, by decide⟩
  have hexp : (Monomial.of (.exp (.ofNat 2) (Poly.var "n")) 1).Elementary :=
    Monomial.elementary_of (.exp (by decide) (by decide) hn) ⟨by decide, by decide⟩
  have hsqrt : (Monomial.of (.power (Poly.var "n") .half) 1).Elementary :=
    Monomial.elementary_of (.sqrt hn) ⟨by decide, by decide⟩
  refine isElementary_of_terms (d := 2)
    (Poly.eq_of_cmp _ (.ofTerms [(.of (.exp (.ofNat 2) (Poly.var "n")) 1, 1),
      (.of (.power (Poly.var "n") .half) 1, .exact (mkRat (-1) 2))]) (by decide +kernel))
    (by decide) (by decide) (List.pairwise_pair.mpr (by decide +kernel)) ?_
  rw [List.forall_mem_cons, List.forall_mem_singleton]
  exact ⟨⟨hexp, 2, by rw [Scalar.one_eq]; norm_num, by decide, by decide⟩, hsqrt, -1,
    congrArg Scalar.exact (Rat.mkRat_eq_div (-1) 2), by decide, by decide⟩

/-- A summation that is resolved: its closed form is a polynomial over two. -/
theorem isElementary_triangularSum : (CaseSolution.ofText "Sum(i, (i, 1, n))").IsElementary := by
  have hpower : ∀ e : ℤ, Monomial.IsExponent e → (Monomial.of (.var "n") e).Elementary :=
    fun e => Monomial.elementary_of (.var ⟨'n', [], by decide, by decide, by decide⟩)
  have hhalf : Scalar.half = .exact ((1 : ℤ) / (2 : ℕ)) :=
    congrArg Scalar.exact (Rat.mkRat_eq_div 1 2)
  refine isElementary_of_terms (d := 2)
    (Poly.eq_of_cmp _ (.ofTerms [(.of (.var "n") 1, .half), (.of (.var "n") 2, .half)])
      (by decide +kernel))
    (by decide) (by decide) (List.pairwise_pair.mpr (by decide +kernel)) ?_
  rw [List.forall_mem_cons, List.forall_mem_singleton]
  exact ⟨⟨hpower 1 ⟨by decide, by decide⟩, 1, hhalf, by decide, by decide⟩,
    hpower 2 ⟨by decide, by decide⟩, 1, hhalf, by decide, by decide⟩

/-- The hypotheses of `exact_again` can be met, by an expanded text,
`2**n - sqrt(n)/2`, and by a factored one, `n*(n + 1)/2`. -/
theorem exact_again_triangularSum :
    (CaseSolution.ofText "2**n - sqrt(n)/2").IsElementary ∧
      (CaseSolution.ofText "Sum(i, (i, 1, n))").IsElementary ∧
      (ofTexts "2**n - sqrt(n)/2" "Sum(i, (i, 1, n))" "Sum(i, (i, 1, n))").again.best.exact =
        (ofTexts "2**n - sqrt(n)/2" "Sum(i, (i, 1, n))" "Sum(i, (i, 1, n))").best.exact ∧
      (ofTexts "2**n - sqrt(n)/2" "Sum(i, (i, 1, n))" "Sum(i, (i, 1, n))").again.worst.exact =
        (ofTexts "2**n - sqrt(n)/2" "Sum(i, (i, 1, n))" "Sum(i, (i, 1, n))").worst.exact :=
  have h := exact_again isElementary_exponential isElementary_triangularSum
    isElementary_triangularSum
  ⟨isElementary_exponential, isElementary_triangularSum, h.1, h.2.2⟩

/-- The minimum of `n - n` and `m` is written as `Min(0, m)`, which is solved by
zero. -/
theorem exact_again_cancelledMin :
    (ofTexts "min(n - n, m)" "min(n - n, m)" "min(n - n, m)").best.exact = "Min(0, m)" ∧
      (ofTexts "min(n - n, m)" "min(n - n, m)" "min(n - n, m)").again.best.exact = "0" := by
  have hbest : ∀ a b c : String, (ofTexts a b c).best = CaseSolution.ofText a := fun _ _ _ => rfl
  have hagain : ∀ s : Solution, s.again.best = CaseSolution.ofText s.best.exact := fun _ => rfl
  have hfirst : (CaseSolution.ofText "min(n - n, m)").poly =
      Poly.ofAtom (.min Poly.zero (Poly.var "m")) := Poly.eq_of_cmp _ _ (by decide +kernel)
  have hsecond : (CaseSolution.ofText "Min(0, m)").poly = Poly.zero :=
    Poly.eq_of_cmp _ _ (by decide +kernel)
  have hminText : (Poly.ofAtom (.min Poly.zero (Poly.var "m"))).compactText = "Min(0, m)" := by
    decide +kernel
  have hzeroText : Poly.zero.compactText = "0" := by decide +kernel
  have htext : (CaseSolution.ofText "min(n - n, m)").exact = "Min(0, m)" := by
    rw [CaseSolution.exact, hfirst, hminText]
  rw [hagain, hbest, htext]
  refine ⟨rfl, ?_⟩
  rw [CaseSolution.exact, hsecond, hzeroText]

end Solution

end CostAnalysis
