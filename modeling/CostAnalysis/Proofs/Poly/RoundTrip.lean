import CostAnalysis.Proofs.Poly.Factored

/-!
# Polynomials over variables are read back

A polynomial whose atoms are variables is written without a fragment, so that
its text is reduced in silence, and to nothing but the polynomial.

* **Expanded.**  This holds of every polynomial over variables
  (`Poly.OverVariables.read?_expanded`): with fractions, with exponents below
  the bar, and with exponents for which a power is not multiplied out.
* **Factored.**  The text `c*m*(rest)/d` is read from the left, so its product
  is formed before it is divided by `d`.  The product is `d` times the
  polynomial, and if that fits (`Poly.FitsOverContent`), the text is read back
  (`Poly.OverVariables.read?_factored`).  If it does not, a coefficient may be
  lost already in the rest (`Poly.read?_factored_lost`).
-/

namespace CostAnalysis

/-- A product of powers of variables.  The exponents are those whose opposites
are exponents too. -/
structure Monomial.OverVariables (m : Monomial) : Prop where
  isVariable : ∀ f ∈ m.factors, ∃ v : String, f.1 = .var v ∧ Formula.IsName v.toList
  isExponent : ∀ f ∈ m.factors, Monomial.IsExponent f.2
  sorted : Assoc.Sorted m.factors

/-- Variables are elementary atoms. -/
theorem Monomial.OverVariables.elementary {m : Monomial} (hm : m.OverVariables) :
    m.Elementary where
  overElementary f hf := by
    obtain ⟨v, hv, hname⟩ := hm.isVariable f hf
    rw [hv]
    exact .var hname
  isExponent := hm.isExponent
  sorted := hm.sorted

namespace Poly

/-- Products of powers of variables in their order, with coefficients other than
zero whose parts fit. -/
structure OverVariables (p : Poly) : Prop where
  overVariables : ∀ t ∈ p.terms, t.1.OverVariables
  fits : ∀ t ∈ p.terms, t.2.Fits
  ne_zero : ∀ t ∈ p.terms, t.2.isZero = false
  sorted : Assoc.Sorted p.terms

variable {p : Poly}

namespace OverVariables

/-- So a polynomial over variables is elementary. -/
theorem elementary (hp : p.OverVariables) : p.Elementary where
  elementary t ht := (hp.overVariables t ht).elementary
  fits := hp.fits
  ne_zero := hp.ne_zero
  sorted := hp.sorted

/-- None of its atoms is opaque. -/
theorem not_isOpaque (hp : p.OverVariables) {a : Atom} (ha : p.HasAtom a) : a.isOpaque ≠ true := by
  obtain ⟨t, ht, f, hf, rfl⟩ := ha
  obtain ⟨v, hv, -⟩ := (hp.overVariables t ht).isVariable f hf
  rw [hv]
  exact Bool.false_ne_true

/-- **The expanded text is read back** without a note. -/
theorem read?_expanded (hp : p.OverVariables) :
    ∃ e, Formula.read? p.text = some e ∧ e.simplify.poly = p ∧ e.simplify.notes = [] := by
  have hfragments : ∀ t ∈ p.terms, ∀ f ∈ t.1.factors, f.1.isOpaque = true → False :=
    fun t ht f hf => hp.not_isOpaque ⟨t, ht, f, hf, rfl⟩
  obtain ⟨e, hread, hclosed, -⟩ := hp.elementary.exists_formula hfragments
  exact ⟨e, hread.read?_eq, hclosed.closedForm_eq, hclosed.silent.notes_simplify not_false⟩

/-- **The factored text is read back** without a note, if what stands before its
denominator fits.  So is the text that is shown, be it the factored or the
expanded one. -/
theorem read?_factored (hp : p.OverVariables) (hfits : p.FitsOverContent) :
    (∀ text, p.factored? = some text →
        ∃ e, Formula.read? text = some e ∧ e.simplify.poly = p ∧ e.simplify.notes = []) ∧
      ∃ e, Formula.read? p.compactText = some e ∧ e.simplify.poly = p ∧ e.simplify.notes = [] := by
  have hfragments : ∀ a, p.HasAtom a → a.isOpaque = true → False := fun a => hp.not_isOpaque
  constructor
  · intro text htext
    obtain ⟨e, hread, hclosed⟩ := hp.elementary.exists_factored hfragments hfits htext
    exact ⟨e, hread.read?_eq, hclosed.closedForm_eq, hclosed.silent.notes_simplify not_false⟩
  · obtain ⟨e, hread, hclosed⟩ := hp.elementary.exists_compact hfragments hfits
    exact ⟨e, hread.read?_eq, hclosed.closedForm_eq, hclosed.silent.notes_simplify not_false⟩

end OverVariables

/-! ## Texts that are read back, and one that is not

The terms stand in the text by `termCmp`, exponentials first and then by degree.
For a given polynomial this is computed term against term, and the rest is an
instance of the theorem. -/

section Examples

variable {fs : List (String × ℤ)} {ts : List (Monomial × Scalar)}

/-- A list of factors is a product of variables if its names and exponents are
allowed and it is sorted. -/
theorem overVariables_ofFactors
    (hfs : ∀ f ∈ fs, Formula.IsName f.1.toList ∧ Monomial.IsExponent f.2)
    (hsorted : Assoc.Sorted (fs.map fun f => (Atom.var f.1, f.2))) :
    (Monomial.ofFactors (fs.map fun f => (Atom.var f.1, f.2))).OverVariables where
  isVariable f hf := by
    obtain ⟨g, hg, rfl⟩ := List.mem_map.mp hf
    exact ⟨g.1, rfl, (hfs g hg).1⟩
  isExponent f hf := by
    obtain ⟨g, hg, rfl⟩ := List.mem_map.mp hf
    exact (hfs g hg).2
  sorted := hsorted

/-- A power of `n` is such a product. -/
theorem overVariables_power {e : ℤ} (he : Monomial.IsExponent e) :
    (Monomial.ofFactors [(.var "n", e)]).OverVariables := by
  have hn : Formula.IsName "n".toList := ⟨'n', [], by decide, by decide, by decide⟩
  refine @overVariables_ofFactors [("n", e)] ?_ (List.pairwise_singleton _ _)
  simpa using ⟨hn, he⟩

theorem overVariables_one : Monomial.one.OverVariables :=
  ⟨List.forall_mem_nil _, List.forall_mem_nil _, List.Pairwise.nil⟩

/-- A list of terms is such a polynomial if each of its terms is allowed and it
is sorted. -/
theorem overVariables_ofTerms (hsorted : Assoc.Sorted ts)
    (hts : ∀ t ∈ ts, t.1.OverVariables ∧ ∃ q : ℚ, t.2 = .exact q ∧
      Scalar.fits q.num = true ∧ Scalar.fits q.den = true ∧ q.num ≠ 0) :
    (ofTerms ts).OverVariables where
  overVariables t ht := (hts t ht).1
  fits t ht := by
    obtain ⟨q, hq, hnum, hden, -⟩ := (hts t ht).2
    exact ⟨q, hq, hnum, hden⟩
  ne_zero t ht := by
    obtain ⟨q, hq, -, -, hne⟩ := (hts t ht).2
    rw [hq]
    exact Scalar.isZero_exact_of_ne (Rat.num_ne_zero.mp hne)
  sorted := hsorted

/-- Two terms in the wrong order are exchanged. -/
theorem sortedTerms_pair {s t : Monomial × Scalar} (h : termCmp s t = .gt) :
    (ofTerms [s, t]).sortedTerms = [t, s] := by
  show [s, t].mergeSort _ = _
  simp [List.mergeSort, h]

theorem sortedTerms_triple {s t u : Monomial × Scalar} (hst : termCmp s t = .gt)
    (htu : termCmp t u ≠ .gt) (hsu : termCmp s u ≠ .gt) :
    (ofTerms [s, t, u]).sortedTerms = [t, s, u] := by
  show [s, t, u].mergeSort _ = _
  simp [List.mergeSort, List.MergeSort.Internal.splitInTwo, hst, htu, hsu]

/-- The factored text of two terms, given what is left of each. -/
theorem factored?_pair (s t : Monomial × Scalar) {c x y : Scalar} {common m n : Monomial}
    {rest : Poly} (hsorted : termCmp s t = .gt) (hcontent : content [t, s] = c)
    (hcommon : commonVars [t, s] = common) (hx : t.2.div? c = some x) (hy : s.2.div? c = some y)
    (hm : common.factors.foldl (fun acc f => acc.mul (.of f.1 (-f.2))) t.1 = m)
    (hn : common.factors.foldl (fun acc f => acc.mul (.of f.1 (-f.2))) s.1 = n)
    (hrest : (zero.add (term x m)).add (term y n) = rest) :
    (ofTerms [s, t]).factored? =
      if c.isOne && common.isOne then none
      else
        let product := "*".intercalate (numberParts c.numer.natAbs ++
          common.factorTexts.map Prod.snd ++ [parenthesized rest.text])
        let signed := if c.isNegative then "-" ++ product else product
        some (if c.denom ≠ 1 then signed ++ "/" ++ toString c.denom else signed) := by
  have hfold : [t, s].foldlM (fun (acc : Poly) t => (t.2.div? c).map fun q =>
      acc.add (term q (common.factors.foldl (fun acc f => acc.mul (.of f.1 (-f.2))) t.1))) zero =
        some rest := by
    simp only [List.foldlM_cons, hx, hy, Option.map_some, hm, hn]
    exact congrArg some hrest
  have hlength : ¬ (ofTerms [s, t]).terms.length < 2 := by simp [terms]
  simp only [factored?, if_neg hlength, sortedTerms_pair hsorted, hcontent, hcommon]
  split
  · rfl
  · exact congrArg (Option.bind · _) hfold

end Examples

/-- Fractions, a constant between other terms, an exponent below the bar and one
for which the power is not multiplied out. -/
def mixedFractions : Poly :=
  ofTerms [(.one, .exact (mkRat (-1) 3)),
    (.ofFactors [(.var "m", -2), (.var "n", 70)], .exact (mkRat (-3) 2)),
    (.ofFactors [(.var "n", -1)], .exact (mkRat 5 7))]

/-- The terms of `mixedFractions` are sorted, and its coefficients are small. -/
theorem overVariables_mixedFractions : mixedFractions.OverVariables := by
  have hm : Formula.IsName "m".toList := ⟨'m', [], by decide, by decide, by decide⟩
  have hn : Formula.IsName "n".toList := ⟨'n', [], by decide, by decide, by decide⟩
  have hproduct : (Monomial.ofFactors [(.var "m", -2), (.var "n", 70)]).OverVariables :=
    @overVariables_ofFactors [("m", -2), ("n", 70)]
      (by simpa using ⟨⟨hm, by decide, by decide⟩, hn, by decide, by decide⟩)
      (List.pairwise_pair.mpr (by decide +kernel))
  refine overVariables_ofTerms (by simp only [Assoc.Sorted, List.pairwise_cons]; decide +kernel) ?_
  simp only [List.forall_mem_cons]
  exact ⟨⟨overVariables_one, _, rfl, by decide +kernel⟩, ⟨hproduct, _, rfl, by decide +kernel⟩,
    ⟨overVariables_power ⟨by decide, by decide⟩, _, rfl, by decide +kernel⟩,
    List.forall_mem_nil _⟩

/-- The text of `mixedFractions` has its terms in the order of degrees, and is
read back. -/
theorem read?_expanded_mixedFractions :
    mixedFractions.OverVariables ∧
      ∃ e, Formula.read? "-3*n**70/(2*m**2) - 1/3 + 5/(7*n)" = some e ∧
        e.simplify.poly = mixedFractions ∧ e.simplify.notes = [] := by
  have htext : mixedFractions.text = "-3*n**70/(2*m**2) - 1/3 + 5/(7*n)" := by
    rw [mixedFractions, text_eq, sortedTerms_triple (by decide +kernel) (by decide +kernel)
      (by decide +kernel)]
    decide +kernel
  have hread := overVariables_mixedFractions.read?_expanded
  rw [htext] at hread
  exact ⟨overVariables_mixedFractions, hread⟩

/-- A common factor with the sign of the leading term and with a denominator,
and a common variable. -/
def negativeMultiple : Poly :=
  ofTerms [(.ofFactors [(.var "n", 1)], .exact (mkRat (-3) 4)),
    (.ofFactors [(.var "n", 2)], .exact (mkRat (-3) 2))]

/-- The terms of `negativeMultiple` are sorted, and its coefficients are
small. -/
theorem overVariables_negativeMultiple : negativeMultiple.OverVariables := by
  refine overVariables_ofTerms (List.pairwise_pair.mpr (by decide +kernel)) ?_
  simp only [List.forall_mem_cons]
  exact ⟨⟨overVariables_power ⟨by decide, by decide⟩, _, rfl, by decide +kernel⟩,
    ⟨overVariables_power ⟨by decide, by decide⟩, _, rfl, by decide +kernel⟩,
    List.forall_mem_nil _⟩

/-- The text of `negativeMultiple` has the common factor in front, and is read
back: the product before the division is four times the polynomial, which
fits. -/
theorem read?_factored_negativeMultiple :
    (negativeMultiple.OverVariables ∧ negativeMultiple.FitsOverContent) ∧
      ∃ e, Formula.read? "-3*n*(2*n + 1)/4" = some e ∧
        e.simplify.poly = negativeMultiple ∧ e.simplify.notes = [] := by
  have hrest : (zero.add (term 2 (.ofFactors [(.var "n", 1)]))).add (term 1 .one) =
      ofTerms [(.one, 1), (.ofFactors [(.var "n", 1)], 2)] := eq_of_cmp _ _ (by decide +kernel)
  have htext : (ofTerms [(.one, 1), (.ofFactors [(.var "n", 1)], (2 : Scalar))]).text =
      "2*n + 1" := by
    rw [text_eq, sortedTerms_pair (by decide +kernel)]
    decide +kernel
  have hsome : negativeMultiple.factored? = some "-3*n*(2*n + 1)/4" := by
    have hpair := factored?_pair (.ofFactors [(.var "n", 1)], .exact (mkRat (-3) 4))
      (.ofFactors [(.var "n", 2)], .exact (mkRat (-3) 2)) (c := .exact (mkRat (-3) 4))
      (by decide +kernel) (by decide +kernel) rfl (by decide +kernel) (by decide +kernel) rfl rfl
      hrest
    rw [htext] at hpair
    exact hpair.trans (by decide +kernel)
  have hfits : negativeMultiple.FitsOverContent := by
    have hcontent : content negativeMultiple.sortedTerms = .exact (mkRat (-3) 4) := by
      rw [negativeMultiple, sortedTerms_pair (by decide +kernel)]
      decide +kernel
    rw [FitsOverContent, hcontent]
    simp only [negativeMultiple, terms, List.forall_mem_cons]
    exact ⟨⟨-3, by decide +kernel, by decide, by decide⟩,
      ⟨-6, by decide +kernel, by decide, by decide⟩, List.forall_mem_nil _⟩
  exact ⟨⟨overVariables_negativeMultiple, hfits⟩,
    (overVariables_negativeMultiple.read?_factored hfits).1 _ hsome⟩

/-- A coefficient near the greatest one beside a fraction. -/
def greatCoefficient : Poly :=
  ofTerms [(.one, .exact (mkRat 1 3)), (.ofFactors [(.var "n", 1)], .ofNat (2 ^ 126))]

/-- The great coefficient of `greatCoefficient` just fits. -/
theorem overVariables_greatCoefficient : greatCoefficient.OverVariables := by
  refine overVariables_ofTerms (List.pairwise_pair.mpr (by decide +kernel)) ?_
  simp only [List.forall_mem_cons]
  exact ⟨⟨overVariables_one, _, rfl, by decide +kernel⟩,
    ⟨overVariables_power ⟨by decide, by decide⟩, _, rfl, by decide +kernel⟩,
    List.forall_mem_nil _⟩

/-- **A factored text that is not read back.**  The content is the third of one,
and three times the other coefficient does not fit. -/
theorem read?_factored_lost :
    greatCoefficient.OverVariables ∧ greatCoefficient.factored? = some "(n/0 + 1)/3" ∧
      ∀ e, Formula.read? "(n/0 + 1)/3" = some e → e.simplify.poly ≠ greatCoefficient := by
  have hrest : (zero.add (term .overflow (.ofFactors [(.var "n", 1)]))).add (term 1 .one) =
      ofTerms [(.one, 1), (.ofFactors [(.var "n", 1)], .overflow)] :=
    eq_of_cmp _ _ (by decide +kernel)
  have htext : (ofTerms [(.one, 1), (.ofFactors [(.var "n", 1)], Scalar.overflow)]).text =
      "n/0 + 1" := by
    rw [text_eq, sortedTerms_pair (by decide +kernel)]
    decide +kernel
  have hlost : ((Formula.read? "(n/0 + 1)/3").all fun e => e.simplify.poly.hasOpaque) = true := by
    decide +kernel
  refine ⟨overVariables_greatCoefficient, ?_, fun e he hpoly => ?_⟩
  · have hpair := factored?_pair (.one, .exact (mkRat 1 3))
      (.ofFactors [(.var "n", 1)], .ofNat (2 ^ 126)) (c := .exact (mkRat 1 3)) (by decide +kernel)
      (by decide +kernel) rfl (by decide +kernel) (by decide +kernel) rfl rfl hrest
    rw [htext] at hpair
    exact hpair.trans (by decide +kernel)
  · rw [he, Option.all_some, hpoly] at hlost
    cases hlost

end Poly

end CostAnalysis
