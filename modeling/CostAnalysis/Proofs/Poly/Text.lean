import CostAnalysis.Proofs.Formula.ClosedForm
import CostAnalysis.Proofs.Formula.RoundTrip

/-!
# Expanded texts are read back

A polynomial over elementary atoms is written term by term,
`3*n**2/(2*m) - log(n) + 1`, and every piece of that text is read as a formula
whose closed form is what was written:

* a power of an atom (`Atom.IsElementary.exists_power`),
* a product of a number and powers, with or without a sign (`exists_productOf`),
* a term, that is such a product or a quotient of two of them (`exists_term`),
* a sum, whose terms are added one by one from the left (`Formula.IsSumOf.add`).

The formula does not have the terms in the order of the text: a number is moved
to the end of a sum from wherever it stood.  It is still a sum of the same terms
(`Formula.IsSumOf`), and as their monomials all differ, the closed form does not
depend on their order.  What follows for the whole text is
`Poly.Elementary.exists_formula`.

A fragment among the atoms is noted when the text is reduced, and nothing else
is: `fragments` says whether there may be one.
-/

namespace CostAnalysis

open Formula

/-! ## Texts

A text is built by concatenation and intercalation of strings, a reader works on
lists of characters.  The first lemmas say what the printer writes as one chain
of operands with signs between them, which is the form in which the lemmas on
reading take it. -/

/-- Parts joined by stars, character by character. -/
theorem toList_intercalate_star (part : String) (parts : List String) :
    ("*".intercalate (part :: parts)).toList =
      part.toList ++ parts.flatMap fun p => '*' :: p.toList := by
  induction parts generalizing part with
  | nil => exact (List.append_nil _).symm
  | cons next parts ih =>
      have hjoin : "*".intercalate (part :: next :: parts) =
          "*".intercalate ((part ++ "*" ++ next) :: parts) := rfl
      rw [hjoin, ih]
      simp

/-- The texts of factors go with their exponents, of which the text shows the
absolute values. -/
theorem Atom.factorTexts_eq (fs : List (Atom × ℤ)) :
    Atom.factorTexts fs = fs.map fun f => (f.2, f.1.powerText f.1.text (Int.ofNat f.2.natAbs)) := by
  induction fs with
  | nil => rfl
  | cons f fs ih => rw [Atom.factorTexts, ih, List.map_cons]

theorem Monomial.factorTexts_eq (m : Monomial) :
    m.factorTexts =
      m.factors.map fun f => (f.2, f.1.powerText f.1.text (Int.ofNat f.2.natAbs)) := by
  obtain ⟨fs⟩ := m
  exact Atom.factorTexts_eq fs

/-- Terms go with their texts. -/
theorem Poly.termTexts_eq (ts : List (Monomial × Scalar)) :
    Poly.termTexts ts = ts.map fun t => (t, Poly.termText t.2 t.1.factorTexts) := by
  induction ts with
  | nil => rfl
  | cons t ts ih => rw [Poly.termTexts, ih, List.map_cons]

/-- The text of a polynomial joins the texts of its terms in their order. -/
theorem Poly.text_eq (p : Poly) :
    p.text = joinTerms (p.sortedTerms.map fun t => (t.2, termText t.2 t.1.factorTexts)) := by
  obtain ⟨ts⟩ := p
  show assemble (termTexts ts) = joinTerms ((ts.mergeSort _).map _)
  rw [assemble, termTexts_eq, ← List.map_mergeSort (r := fun s t => termCmp s t != .gt)
    fun _ _ _ _ => rfl, List.map_map]
  rfl

/-- A variable is written as its name. -/
theorem Poly.text_var (v : String) : (var v).text = v := by
  have hsorted : (var v).sortedTerms = [(.ofFactors [(.var v, 1)], 1)] :=
    List.mergeSort_singleton _
  rw [text_eq, hsorted]
  exact String.append_empty

/-! ## Powers

Every power of an elementary atom is written so that the reader takes it as one
factor, with a parenthesis around whatever binds less.  What is claimed of the
formula is more than its closed form: it must not be folded with its neighbours
when the product is read, and `Formula.IsFactorOf` says so. -/

/-- One factor of a product, and what it closes to. -/
structure Formula.IsFactorOf (fragments : Prop) (e : Formula) (p : Poly) : Prop where
  canonical : Canonical e
  isFactor : IsFactor e
  isTerm : IsTerm e
  neg_eq : e.neg = .minus e
  closesTo : e.ClosesTo fragments p

/-- The logarithm of a variable is an atom. -/
theorem Poly.log_var (v : String) : (var v).log = ofAtom (.log (var v)) := by
  have hscale : (ofAtom (.log (var v))).scale (.ofInt 1) = ofAtom (.log (var v)) := by
    show ofTerms [(.of (.log (var v)) 1, 1 * 1)] = _
    rw [Scalar.one_fits.one_mul]
    rfl
  show zero.add ((ofAtom (.log (var v))).scale (.ofInt 1)) = _
  rw [hscale, ofAtom, add_term rfl, zero_addTerm .one]

/-- A power of a number with a variable as exponent is an atom, unless the
number is zero or one. -/
theorem Poly.exp_var {b : ℕ} (hb : 1 < b) (v : String) :
    (constant (.ofNat b)).power (var v) = ofAtom (.exp (.ofNat b) (var v)) := by
  have hzero : (Scalar.ofNat b).isZero = false := Scalar.isZero_ofInt_of_ne (by simp; omega)
  have hone : (Scalar.ofNat b).isOne = false := Scalar.isOne_ofInt_of_ne (by simp; omega)
  have hnegative : (Scalar.ofNat b).isNegative = false := decide_eq_false (by
    show ¬ (b : ℤ) < 0
    omega)
  have hexp : exp (.ofNat b) (var v) = ofAtom (.exp (.ofNat b) (var v)) := by
    rw [exp, hone, hzero]
    rfl
  have hsymbolic : (var v).asConstant? = none := rfl
  have hbase : (constant (.ofNat b)).asConstant? = some (.ofNat b) := asConstant?_term hzero .one
  simp only [power, hsymbolic, hbase, hnegative, hexp, Bool.false_eq_true, if_false]

/-- The square root of a variable is an atom, as half of one is not integral. -/
theorem Poly.sqrt_var (v : String) :
    (var v).power (constant .half) = ofAtom (.power (var v) .half) := by
  have hproduct : Scalar.ofInt 1 * .half = .half := Scalar.half_fits.one_mul
  have hscaled : scaleExponents? [(.var v, 1)] .half = none := by
    simp only [scaleExponents?, List.mapM_cons, hproduct]
    rfl
  show (var v).powRational .half = _
  rw [powRational]
  split
  · next k hk => cases hk
  · dsimp only
    split
    · next factors hfactors =>
        have hsome : scaleExponents? [(.var v, 1)] .half = some factors := hfactors
        rw [hscaled] at hsome
        cases hsome
    · rfl

section Factor

variable {fragments : Prop}

/-- **An atom is read** as a formula that closes to it.  Those that are put in
parentheses before an exponent are read as powers. -/
theorem Atom.IsElementary.exists_formula {a : Atom} (ha : a.IsElementary)
    (hfragments : a.isOpaque = true → fragments) :
    ∃ e, ReadsAt (if a.needsParens then 3 else 4) a.text.toList e ∧
      e.IsFactorOf fragments (Poly.ofAtom a) := by
  cases ha with
  | @var v hv => exact ⟨.var v, readsAtom_var hv, .var hv, ⟨rfl, rfl⟩, ⟨rfl, rfl⟩, rfl, .var v⟩
  | @log v hv =>
      have hcanonical : Canonical (.logOf (.var v)) := .logOf (.var hv)
      have htext : (Atom.log (Poly.var v)).text = (Formula.logOf (.var v)).text := by
        rw [Atom.text, Poly.text_var]
        rfl
      refine ⟨.logOf (.var v), ?_, hcanonical, ⟨rfl, rfl⟩, ⟨rfl, rfl⟩, rfl, ?_⟩
      · rw [htext]
        exact hcanonical.readable.whole
      · exact (ClosesTo.var v).logOf (Poly.log_var v) rfl
  | @exp b v hb hfits hv =>
      have hnum : (Scalar.ofNat b).Fits := .ofInt hfits
      have hcanonical : Canonical (.raised (num (.ofNat b)) (.var v)) :=
        .raised (.num hnum) (.var hv) rfl
      -- a natural base is written without parentheses
      have hplain : (Scalar.ofNat b).isNegative = false ∧ (Scalar.ofNat b).isInteger = true :=
        ⟨decide_eq_false (Int.not_lt.mpr (Int.natCast_nonneg b)), rfl⟩
      have htext : (Atom.exp (.ofNat b) (Poly.var v)).text =
          (Formula.raised (num (.ofNat b)) (.var v)).text := by
        have hvar : (Poly.var v).precedence = 4 := rfl
        rw [Atom.text, Poly.text_var, hvar, Formula.text, operandText, operandText]
        simp [hplain.1, hplain.2, precedence, Formula.text]
      refine ⟨_, ?_, hcanonical, ⟨rfl, rfl⟩, ⟨rfl, rfl⟩, rfl, ?_⟩
      · rw [htext]
        exact hcanonical.readable.whole
      · exact (ClosesTo.num hnum).raised (.var v) (Poly.exp_var hb v) rfl
  | @sqrt v hv =>
      have hcanonical : Canonical (.raised (.var v) (num .half)) :=
        .raised (.var hv) (.num Scalar.half_fits) rfl
      refine ⟨.raised (.var v) (num .half), ?_, hcanonical, ⟨rfl, rfl⟩, ⟨rfl, rfl⟩, rfl, ?_⟩
      -- the root is written as a call, and the reader makes a power of it
      · have hread : ReadsAtom _ (.raised (.var v) (num .half)) :=
          (readsAtom_var hv).readsPower.readsProduct.readsSum.call
            ⟨'s', ['q', 'r', 't'], rfl, by decide, by decide⟩ isBlanks_nil rfl
        have htext : (Atom.power (Poly.var v) .half).text = "sqrt(" ++ v ++ ")" := by
          rw [Atom.text, if_pos rfl, Poly.text_var]
        show ReadsAtom _ _
        rw [htext]
        simpa using hread
      · exact (ClosesTo.var v).raised (.num Scalar.half_fits) (Poly.sqrt_var v) rfl
  | @unknown t ht =>
      have hcanonical : Canonical (.unknown t) := .unknown ht
      exact ⟨.unknown t, hcanonical.readable.whole, hcanonical, ⟨rfl, rfl⟩, ⟨rfl, rfl⟩, rfl,
        .unknown (hfragments rfl) t⟩

/-- A number below `2 ^ 63` fits the words of scalars. -/
theorem fits_natCast {k : ℕ} (hk : k < 2 ^ 63) : Scalar.fits k = true := by
  rw [Scalar.fits_iff, Int.natAbs_natCast]
  omega

/-- **A power with a positive exponent is read.** -/
theorem Atom.IsElementary.exists_power {a : Atom} (ha : a.IsElementary)
    (hfragments : a.isOpaque = true → fragments) {k : ℕ} (hpos : k ≠ 0) (hk : k < 2 ^ 63) :
    ∃ e, ReadsPower (a.powerText a.text k).toList e ∧
      e.IsFactorOf fragments (Poly.term 1 (.of a k)) := by
  obtain ⟨base, hbase, hfactor⟩ := ha.exists_formula hfragments
  by_cases hone : k = 1
  · subst hone
    refine ⟨base, ?_, hfactor⟩
    have hpower : ReadsPower a.text.toList base := hbase.mono (k := 3) (by split <;> decide)
    exact hpower
  · -- before an exponent the base is an atom of the text, if need be by parentheses
    have hatom :
        ReadsAtom (if a.needsParens then parenthesized a.text else a.text).toList base := by
      cases hparens : a.needsParens with
      | false =>
          rw [hparens] at hbase
          exact hbase
      | true =>
          have hsum : ReadsSum a.text.toList base := hbase.mono (k := 1) (by split <;> decide)
          simpa [parenthesized] using hsum.parenthesized
    have hfits := fits_natCast hk
    have hone' : (Scalar.ofNat k).isOne = false :=
      Scalar.isOne_ofInt_of_ne (by simpa using hone)
    have hzero : (Scalar.ofNat k).isZero = false :=
      Scalar.isZero_ofInt_of_ne (Int.natCast_ne_zero.mpr hpos)
    -- a power with an exponent above one is not folded
    have hpow : base.pow (num (.ofNat k)) = .raised base (num (.ofNat k)) := by
      simp [pow, isOne, isZero, asNum?, hone', hzero]
    have hread := hatom.pow (readsAtom_nat hfits).readsPower
    rw [hpow] at hread
    refine ⟨.raised base (num (.ofNat k)), ?_, ?_⟩
    · have htext : a.powerText a.text k =
          (if a.needsParens then parenthesized a.text else a.text) ++ "**" ++ toString k := by
        rw [Atom.powerText, if_neg (by exact_mod_cast hone)]
        rfl
      rw [htext]
      simpa using hread
    · refine ⟨.raised hfactor.canonical (.num (.ofInt hfits)) hpow, ⟨rfl, rfl⟩, ⟨rfl, rfl⟩, rfl, ?_⟩
      have hmonomial : (Monomial.of a k).Elementary :=
        Monomial.elementary_of ha ⟨by omega, by omega⟩
      exact hfactor.closesTo.raised (.num (.ofInt hfits)) (Poly.power_ofAtom ha hpos hk)
        (Poly.elementary_term Scalar.one_fits hmonomial).hasOverflow

end Factor

/-! ## Products

The reader multiplies from the left and folds whatever numbers it meets, so what
a product of `k` parts is read as depends on the first of them: a number goes in
front, a sign turns it around, and a single part is no product at all.  The
lemmas follow these cases, and from `exists_productOf` on only the closed form
of the product is used. -/

/-- The text of a power with a positive exponent. -/
def Atom.positivePowerText (f : Atom × ℤ) : String :=
  f.1.powerText f.1.text f.2

/-- The text of a factor with a positive exponent is that of the power. -/
theorem Atom.powerText_natAbs {f : Atom × ℤ} (hf : 0 < f.2) :
    f.1.powerText f.1.text (Int.ofNat f.2.natAbs) = positivePowerText f := by
  rw [positivePowerText, Int.ofNat_eq_natCast, Int.natAbs_of_nonneg hf.le]

/-- A further factor can be put behind the formula, and nothing is folded. -/
def Formula.TakesFactors (fragments : Prop) (e : Formula) : Prop :=
  ∀ (d : Formula) (q p : Poly), IsFactor d → d.ClosesTo fragments q → e.closedForm.mul q = p →
    p.hasOverflow = false → (e.mul d).ClosesTo fragments p ∧ (e.mul d).asNum? = none

/-- A product takes further factors, as long as its first factor is neither zero
nor one, for then nothing is folded. -/
theorem Formula.takesFactors_productOf {fragments : Prop} {first : Formula} {more : List Formula}
    (hfirst : Canonical first)
    (hhead : first.multiplicands = [first] ∧ first.isZero = false ∧ first.isOne = false)
    (hmore : ∀ e ∈ more, IsFactor e) (hone : Poly.one.mul first.closedForm = first.closedForm)
    (hsilent : ∀ e ∈ first :: more, e.Silent fragments)
    (hclosed : more.foldl (fun product e => product.mul e.closedForm) first.closedForm =
      (productOf (first :: more)).closedForm) :
    (productOf (first :: more)).TakesFactors fragments := by
  intro d q p hd hq hmul hp
  rw [mul_productOf hfirst hhead hmore hd]
  refine ⟨.productOf hone ?_ ?_ hp, ?_⟩
  · rw [← List.cons_append]
    exact List.forall_mem_append.mpr ⟨hsilent, List.forall_mem_singleton.mpr hq.silent⟩
  · rw [List.foldl_append, hclosed, List.foldl_cons, hq.closedForm_eq]
    exact hmul
  · cases more <;> rfl

section Product

variable {fragments : Prop} {cs : List Char} {first : Formula} {x : Scalar} {m : Monomial}
  {fs : List (Atom × ℤ)}

/-- **A product of powers is read.**  It begins with any factor, a number or a
power with or without a sign. -/
theorem exists_product (hread : ReadsPower cs first) (hcanonical : Canonical first)
    (hsingle : first.multiplicands = [first]) (hclosed : first.ClosesTo fragments (Poly.term x m))
    (hx : x.Fits) (hx0 : x.isZero = false) (hm : m.Elementary)
    (hall : (m.mul (.ofFactors fs)).Elementary) (hfs : (Monomial.ofFactors fs).Elementary)
    (hfragments : ∀ f ∈ fs, f.1.isOpaque = true → fragments)
    (hpos : ∀ f ∈ fs, 0 < f.2) (hplain : fs ≠ [] → first.isZero = false ∧ first.isOne = false) :
    ∃ e, ReadsProduct (cs ++ fs.flatMap fun f => '*' :: (Atom.positivePowerText f).toList) e ∧
      e.ClosesTo fragments (Poly.term x (m.mul (.ofFactors fs))) ∧ (fs = [] → e = first) ∧
      (fs ≠ [] → IsTerm e ∧ e.neg = .minus e) ∧
      (first.isZero = false ∧ first.isOne = false → e.TakesFactors fragments) := by
  -- each power has a formula of its own, and the product is the list of these
  have hpowers : ∀ f, f ∈ fs → ∃ e, ReadsPower (Atom.positivePowerText f).toList e ∧
      e.IsFactorOf fragments (Poly.term 1 (.of f.1 f.2)) := by
    intro f hf
    obtain ⟨k, hk⟩ := Int.eq_ofNat_of_zero_le (hpos f hf).le
    obtain ⟨hzero, hbound⟩ := hfs.isExponent f hf
    rw [Atom.positivePowerText, hk]
    exact (hfs.overElementary f hf).exists_power (hfragments f hf) (by omega) (by omega)
  choose! formula hformula using hpowers
  have hone : Poly.one.mul first.closedForm = first.closedForm := by
    rw [hclosed.closedForm_eq, Poly.one_mul_term hx hx0 hm]
  have hproduct : (fs.map formula).foldl (fun product e => product.mul e.closedForm)
      first.closedForm = Poly.term x (m.mul (.ofFactors fs)) := by
    have hexponents : ∀ f ∈ fs, f.2 ≠ 0 := fun f hf => (hfs.isExponent f hf).1
    rw [hclosed.closedForm_eq, List.foldl_map, ← Poly.foldl_mul_powers hx hx0 hexponents m]
    refine List.foldl_ext _ _ _ fun product f hf => ?_
    rw [(hformula f hf).2.closesTo.closedForm_eq]
  -- no part of the product is noted, but for fragments
  have hsilent : ∀ e ∈ first :: fs.map formula, e.Silent fragments := by
    refine List.forall_mem_cons.mpr ⟨hclosed.silent, fun e he => ?_⟩
    obtain ⟨f, hf, rfl⟩ := List.mem_map.mp he
    exact (hformula f hf).2.closesTo.silent
  have hclosed' := ClosesTo.productOf hone hsilent hproduct
    (Poly.elementary_term hx hall).hasOverflow
  refine ⟨productOf (first :: fs.map formula), ?_, hclosed', ?_, ?_, fun hplain => ?_⟩
  · cases hcases : fs with
    | nil => simpa [productOf] using hread.readsProduct
    | cons f more =>
        obtain ⟨hzero, hnotOne⟩ := hplain (by simp [hcases])
        have hfactors := hread.readsProduct.factors hcanonical ⟨hsingle, hzero, hnotOne⟩
          (fs.map fun f => ((Atom.positivePowerText f).toList, formula f)) fun part hpart => by
            obtain ⟨f, hf, rfl⟩ := List.mem_map.mp hpart
            exact ⟨(hformula f hf).1, (hformula f hf).2.isFactor⟩
        rw [← hcases]
        simpa [List.flatMap_map, Function.comp_def] using hfactors
  · rintro rfl
    rfl
  · intro hne
    obtain ⟨f, more, rfl⟩ := List.exists_cons_of_ne_nil hne
    exact ⟨⟨rfl, rfl⟩, rfl⟩
  · refine takesFactors_productOf hcanonical ⟨hsingle, hplain⟩ (fun e he => ?_) hone hsilent
      (hproduct.trans hclosed'.closedForm_eq.symm)
    obtain ⟨f, hf, rfl⟩ := List.mem_map.mp he
    exact (hformula f hf).2.isFactor

/-- One term of a sum and what it closes to: a number if its monomial is one. -/
structure Formula.IsTermOf (fragments : Prop) (e : Formula) (c : Scalar) (m : Monomial) : Prop where
  closesTo : e.ClosesTo fragments (Poly.term c m)
  eq_num : m.factors = [] → e = .num c
  isTerm : m.factors ≠ [] → IsTerm e

/-- The parts of a product: a number, unless it is one before other factors, and
powers. -/
def productParts (n : ℕ) (texts : List String) : List String :=
  if n ≠ 1 || texts.isEmpty then toString n :: texts else texts

/-- A product has a part at least: without powers the number is written, also if
it is one. -/
theorem productParts_ne_nil (n : ℕ) (texts : List String) : productParts n texts ≠ [] := by
  rw [productParts]
  split
  · exact List.cons_ne_nil _ _
  · next hplain =>
      have hboth : n = 1 ∧ texts ≠ [] := by simpa using hplain
      exact hboth.2

/-- A sign before a text. -/
def signedText (negative : Bool) (text : String) : String :=
  if negative then "-" ++ text else text

/-- An integer with a sign. -/
def signedInt (negative : Bool) (n : ℕ) : ℤ :=
  if negative then -n else n

/-- An integer is its absolute value with its sign. -/
theorem signedInt_natAbs (z : ℤ) : signedInt (z < 0) z.natAbs = z := by
  simp only [signedInt, decide_eq_true_eq]
  split <;> omega

variable (negative : Bool)

/-- A sign before a power is read as the opposite. -/
theorem readsPower_signed {text : String} {e : Formula} (h : ReadsPower text.toList e) :
    ReadsPower (signedText negative text).toList (if negative then e.neg else e) := by
  cases negative with
  | false => exact h
  | true => simpa [signedText] using h.minus

/-- The text of a product is its first part with the sign, and each further part
behind a star. -/
theorem toList_signedText_intercalate (part : String) (parts : List String) :
    (signedText negative ("*".intercalate (part :: parts))).toList =
      (signedText negative part).toList ++ parts.flatMap fun p => '*' :: p.toList := by
  cases negative with
  | false => exact toList_intercalate_star part parts
  | true =>
      show ("-" ++ "*".intercalate (part :: parts)).toList = ("-" ++ part).toList ++ _
      rw [String.toList_append, String.toList_append, toList_intercalate_star, List.append_assoc]

/-- The same, seen from the last part. -/
theorem toList_signedText_intercalate_concat {parts : List String} (hne : parts ≠ [])
    (last : String) :
    (signedText negative ("*".intercalate (parts ++ [last]))).toList =
      (signedText negative ("*".intercalate parts)).toList ++ '*' :: last.toList := by
  obtain ⟨part, more, rfl⟩ := List.exists_cons_of_ne_nil hne
  rw [List.cons_append, toList_signedText_intercalate, toList_signedText_intercalate]
  simp

/-- A power with or without a sign. -/
theorem exists_signedPower {f : Atom × ℤ} (ha : f.1.IsElementary) (he : Monomial.IsExponent f.2)
    (hfragments : f.1.isOpaque = true → fragments) (hpos : 0 < f.2) :
    ∃ e, ReadsPower (signedText negative (Atom.positivePowerText f)).toList e ∧ Canonical e ∧
      IsFactor e ∧ IsTerm e ∧ (negative = false → e.neg = .minus e) ∧
      e.ClosesTo fragments (Poly.term (.ofInt (signedInt negative 1)) (.of f.1 f.2)) := by
  obtain ⟨a, k⟩ := f
  obtain ⟨k, rfl⟩ := Int.eq_ofNat_of_zero_le hpos.le
  obtain ⟨hzero, hbound⟩ := he
  obtain ⟨e, hread, hfactor⟩ := ha.exists_power hfragments (k := k) (by simpa using hzero) hbound
  have hsigned := readsPower_signed negative hread
  cases negative with
  | false =>
      exact ⟨e, hsigned, hfactor.canonical, hfactor.isFactor, hfactor.isTerm,
        fun _ => hfactor.neg_eq, hfactor.closesTo⟩
  | true =>
      rw [if_pos rfl, hfactor.neg_eq] at hsigned
      refine ⟨.minus e, hsigned, .minus hfactor.canonical hfactor.neg_eq, ⟨rfl, rfl⟩, ⟨rfl, rfl⟩,
        nofun, ?_⟩
      exact hfactor.closesTo.minus (Poly.neg_term rfl _) (Poly.elementary_term
        (.ofInt (by decide)) (Monomial.elementary_of ha ⟨hzero, hbound⟩)).hasOverflow

/-- The formula is read from a number times powers, with or without a sign.  If
there is one part only, it is read as a power, and unless that is a bare one,
more factors may follow. -/
structure Formula.IsProductOf (fragments : Prop) (e : Formula) (n : ℕ) (m : Monomial) : Prop where
  reads : ReadsProduct (signedText negative
    ("*".intercalate (productParts n (m.factors.map Atom.positivePowerText)))).toList e
  isTermOf : e.IsTermOf fragments (.ofInt (signedInt negative n)) m
  neg_eq : negative = false → m.factors ≠ [] → e.neg = .minus e
  reads_single : ∀ part, productParts n (m.factors.map Atom.positivePowerText) = [part] →
    ReadsPower (signedText negative part).toList e
  takesFactors : n ≠ 1 ∨ m.factors ≠ [] → e.TakesFactors fragments

/-- **A product that begins with a number** is read factor by factor: the number
is the first factor, and each power multiplies the product so far. -/
theorem exists_productOf_number {n : ℕ} (hn : Scalar.fits n = true) (hn0 : n ≠ 0)
    (hm : m.Elementary) (hfragments : ∀ f ∈ m.factors, f.1.isOpaque = true → fragments)
    (hpos : ∀ f ∈ m.factors, 0 < f.2) (hnumber : n ≠ 1 ∨ m.factors = []) :
    ∃ e : Formula, e.IsProductOf negative fragments n m := by
  obtain ⟨fs⟩ := m
  have hfits : Scalar.fits (signedInt negative n) = true := by
    cases negative with
    | false => exact hn
    | true => exact Scalar.fits_neg hn
  have hvalue : (if negative then (num (.ofNat n)).neg else num (.ofNat n)) =
      num (.ofInt (signedInt negative n)) := by
    cases negative with
    | false => rfl
    | true =>
        have hneg : (num (.ofNat n)).neg = num (-.ofNat n) := neg_num (.ofInt hn)
        exact hneg.trans (congrArg num (Scalar.neg_ofInt hn))
  have hread := readsPower_signed negative (readsAtom_nat hn).readsPower
  rw [hvalue] at hread
  have hsigned : signedInt negative n ≠ 0 ∧ (n ≠ 1 → signedInt negative n ≠ 1) := by
    cases negative <;> simp only [signedInt] <;> omega
  have hzero := Scalar.isZero_ofInt_of_ne hsigned.1
  -- a number other than one stays a factor of its own
  have hplain : n ≠ 1 → (num (.ofInt (signedInt negative n))).isZero = false ∧
      (num (.ofInt (signedInt negative n))).isOne = false := by
    intro hn1
    have hone := Scalar.isOne_ofInt_of_ne (hsigned.2 hn1)
    simp [isZero, isOne, asNum?, hzero, hone]
  obtain ⟨e, hproduct, hclosed, hnil, hcons, htakes⟩ := exists_product hread
    (.num (.ofInt hfits)) rfl (.num (.ofInt hfits)) (.ofInt hfits) hzero
    Monomial.elementary_one (hm.one_mul.symm ▸ hm) hm hfragments hpos
    fun hne => hplain (hnumber.resolve_right hne)
  rw [hm.one_mul] at hclosed
  have hparts : productParts n (fs.map Atom.positivePowerText) =
      toString n :: fs.map Atom.positivePowerText := by
    refine if_pos ?_
    rcases hnumber with hn1 | hnil
    · simp [hn1]
    · simp [show fs = [] from hnil]
  refine ⟨e, ?_, ⟨hclosed, hnil, fun hne => (hcons hne).1⟩, fun _ hne => (hcons hne).2,
    fun part hpart => ?_, fun hproper => htakes (hplain (hproper.elim id hnumber.resolve_right))⟩
  · rw [Monomial.factors, hparts, toList_signedText_intercalate, List.flatMap_map]
    exact hproduct
  · rw [Monomial.factors, hparts, List.cons_eq_cons, List.map_eq_nil_iff] at hpart
    rw [← hpart.1, hnil hpart.2]
    exact hread

/-- **A product that begins with a power** is read in the same way, from the
first power on. -/
theorem exists_productOf_power {f : Atom × ℤ} {more : List (Atom × ℤ)}
    (hm : (Monomial.ofFactors (f :: more)).Elementary)
    (hfragments : ∀ g ∈ f :: more, g.1.isOpaque = true → fragments)
    (hpos : ∀ g ∈ f :: more, 0 < g.2) :
    ∃ e : Formula, e.IsProductOf negative fragments 1 (.ofFactors (f :: more)) := by
  obtain ⟨hf, hmore⟩ := List.forall_mem_cons.mp hpos
  obtain ⟨hffragments, hmorefragments⟩ := List.forall_mem_cons.mp hfragments
  have hatom : f.1.IsElementary := hm.overElementary f List.mem_cons_self
  have hexponent : Monomial.IsExponent f.2 := hm.isExponent f List.mem_cons_self
  obtain ⟨first, hread, hcanonical, hfactor, hterm, hneg, hclosed⟩ :=
    exists_signedPower negative hatom hexponent hffragments hf
  have hfits : (Scalar.ofInt (signedInt negative 1)).Fits := .ofInt (by cases negative <;> decide)
  have hzero : (Scalar.ofInt (signedInt negative 1)).isZero = false := by cases negative <;> rfl
  -- the first power and the others make up the monomial
  have hmul : (Monomial.of f.1 f.2).mul (.ofFactors more) = .ofFactors (f :: more) := by
    rw [Monomial.of_eq f.1 hexponent.1]
    exact hm.eq_mul (List.pairwise_singleton _ _) (List.perm_append_singleton f more)
  have hplain : first.isZero = false ∧ first.isOne = false := by
    simp [isZero, isOne, hfactor.2]
  obtain ⟨e, hproduct, hclosed, hnil, hcons, htakes⟩ := exists_product hread hcanonical
    hfactor.1 hclosed hfits hzero (Monomial.elementary_of hatom hexponent) (hmul.symm ▸ hm)
    (hm.sublist (List.sublist_cons_self f more)) hmorefragments hmore fun _ => hplain
  rw [hmul] at hclosed
  -- a power alone may be a name, of which the opposite is written with a sign
  -- as well
  have hshape : IsTerm e ∧ (negative = false → e.neg = .minus e) := by
    by_cases hmore : more = []
    · rw [hnil hmore]
      exact ⟨hterm, hneg⟩
    · exact ⟨(hcons hmore).1, fun _ => (hcons hmore).2⟩
  have hparts : productParts 1 ((f :: more).map Atom.positivePowerText) =
      Atom.positivePowerText f :: more.map Atom.positivePowerText := by
    simp [productParts]
  have hfactors : f :: more ≠ [] := List.cons_ne_nil f more
  refine ⟨e, ?_, ⟨hclosed, fun h => absurd h hfactors, fun _ => hshape.1⟩, fun h _ => hshape.2 h,
    fun part hpart => ?_, fun _ => htakes hplain⟩
  · rw [Monomial.factors, hparts, toList_signedText_intercalate, List.flatMap_map]
    exact hproduct
  · rw [Monomial.factors, hparts, List.cons_eq_cons, List.map_eq_nil_iff] at hpart
    rw [← hpart.1, hnil hpart.2]
    exact hread

/-- **A product of a number and powers is read.**  It begins with the number, or
with a power if the number is one and left out. -/
theorem exists_productOf {n : ℕ} (hn : Scalar.fits n = true) (hn0 : n ≠ 0) (hm : m.Elementary)
    (hfragments : ∀ f ∈ m.factors, f.1.isOpaque = true → fragments)
    (hpos : ∀ f ∈ m.factors, 0 < f.2) : ∃ e : Formula, e.IsProductOf negative fragments n m := by
  by_cases hnumber : n ≠ 1 ∨ m.factors = []
  · exact exists_productOf_number negative hn hn0 hm hfragments hpos hnumber
  · obtain ⟨hone, hne⟩ := not_or.mp hnumber
    obtain rfl := not_not.mp hone
    obtain ⟨fs⟩ := m
    obtain ⟨f, more, rfl⟩ := List.exists_cons_of_ne_nil hne
    exact exists_productOf_power negative hm hfragments hpos

/-- The text of a divisor, given its parts. -/
def divisorText (parts : List String) : String :=
  match parts with
  | [single] => single
  | _ => parenthesized ("*".intercalate parts)

/-- **A divisor is read.** -/
theorem exists_divisor {d : ℕ} (hd : Scalar.fits d = true) (hd0 : d ≠ 0) (hm : m.Elementary)
    (hfragments : ∀ f ∈ m.factors, f.1.isOpaque = true → fragments)
    (hpos : ∀ f ∈ m.factors, 0 < f.2) :
    ∃ e, ReadsPower (divisorText (productParts d (m.factors.map Atom.positivePowerText))).toList e ∧
      e.IsTermOf fragments (.ofNat d) m := by
  obtain ⟨e, he⟩ := exists_productOf false hd hd0 hm hfragments hpos
  refine ⟨e, ?_, he.isTermOf⟩
  match hparts : productParts d (m.factors.map Atom.positivePowerText) with
  | [single] => exact he.reads_single single hparts
  | [] | _ :: _ :: _ =>
      have hread := he.reads
      rw [hparts] at hread
      simpa [divisorText, parenthesized, signedText] using hread.readsSum.parenthesized.readsPower

/-- The text of a term is that of its numerator, or a quotient. -/
theorem termText_eq (c : Scalar) (m : Monomial) :
    Poly.termText c m.factorTexts =
      if c.denom = 1 ∧ m.denominator.factors = [] then
        "*".intercalate
          (productParts c.numer.natAbs (m.numerator.factors.map Atom.positivePowerText))
      else
        "*".intercalate
            (productParts c.numer.natAbs (m.numerator.factors.map Atom.positivePowerText)) ++
          "/" ++
          divisorText
            (productParts c.denom (m.denominator.factors.map Atom.positivePowerText)) := by
  -- above the bar stand the powers with positive exponents
  have htop : (m.factorTexts.filter fun f => 0 < f.1).map Prod.snd =
      m.numerator.factors.map Atom.positivePowerText := by
    rw [m.factorTexts_eq, List.filter_map, List.map_map]
    exact List.map_congr_left fun f hf =>
      Atom.powerText_natAbs (by simpa using (List.mem_filter.mp hf).2)
  -- and below it those with negative ones, made positive
  have hbottom : (m.factorTexts.filter fun f => f.1 < 0).map Prod.snd =
      m.denominator.factors.map Atom.positivePowerText := by
    rw [m.factorTexts_eq, List.filter_map, List.map_map, Monomial.denominator, Monomial.factors,
      List.map_map]
    refine List.map_congr_left fun f hf => ?_
    have hneg : f.2 < 0 := by simpa using (List.mem_filter.mp hf).2
    show f.1.powerText f.1.text (Int.ofNat f.2.natAbs) = f.1.powerText f.1.text (-f.2)
    rw [Int.ofNat_eq_natCast, Int.ofNat_natAbs_of_nonpos hneg.le]
  simp only [Poly.termText, htop, hbottom]
  by_cases hwhole : c.denom = 1 ∧ m.denominator.factors = []
  · rw [if_pos hwhole, if_neg (not_not.mpr hwhole.1), hwhole.2]
    rfl
  · have hparts : (if c.denom ≠ 1 then
        toString c.denom :: m.denominator.factors.map Atom.positivePowerText
        else m.denominator.factors.map Atom.positivePowerText) =
          productParts c.denom (m.denominator.factors.map Atom.positivePowerText) := by
      by_cases hden : c.denom = 1
      · have hne : m.denominator.factors ≠ [] := fun hnil => hwhole ⟨hden, hnil⟩
        simp [productParts, hden, hne]
      · simp [productParts, hden]
    have hne : productParts c.denom (m.denominator.factors.map Atom.positivePowerText) ≠ [] := by
      rw [← hparts]
      split
      · simp
      · next hden => simpa using fun hnil => hwhole ⟨not_not.mp hden, hnil⟩
    obtain ⟨single, more, hcons⟩ := List.exists_cons_of_ne_nil hne
    rw [if_neg hwhole, hparts, hcons]
    cases more <;> rfl

/-- A fraction is its numerator times the reciprocal of its denominator. -/
theorem mul_inv_den {r : ℚ} (hnum : Scalar.fits r.num = true) (hden : Scalar.fits r.den = true) :
    Scalar.ofInt r.num * .exact (r.den : ℚ)⁻¹ = .exact r := by
  have hvalue : (r.num : ℚ) * (r.den : ℚ)⁻¹ = r := by rw [← div_eq_mul_inv, Rat.num_div_den]
  rw [Scalar.ofInt_eq, Scalar.exact_mul_exact ⟨r, by rw [hvalue], hnum, hden⟩, hvalue]

/-- The quotient of a numerator and a denominator that are not both numbers is
not folded; that of two numbers is. -/
theorem Formula.IsTermOf.div {e d : Formula} {r : ℚ} (hnum : Scalar.fits r.num = true)
    (hden : Scalar.fits r.den = true) (hr : r ≠ 0) (hm : m.Elementary)
    (he : e.IsTermOf fragments (.ofInt r.num) m.numerator)
    (hd : d.IsTermOf fragments (.ofNat r.den) m.denominator)
    (hproper : ¬ (r.den = 1 ∧ m.denominator.factors = [])) :
    (e.div d).IsTermOf fragments (.exact r) m ∧
      (m.factors ≠ [] → (e.div d).neg = .minus (e.div d)) := by
  have hfits : (Scalar.exact r).Fits := ⟨r, rfl, hnum, hden⟩
  -- a quotient of two numbers is folded, and any other one is kept
  by_cases hnumbers : m.numerator.factors = [] ∧ m.denominator.factors = []
  · have hvalue : e.div d = .num (.exact r) := by
      rw [he.eq_num hnumbers.1, hd.eq_num hnumbers.2]
      exact div_num hnum hden fun hone => hproper ⟨hone, hnumbers.2⟩
    have hone : m = .one := by
      have hmul := hm.numerator_mul_inverse
      rw [Monomial.mul, Monomial.inverse, Monomial.pow, hnumbers.2] at hmul
      rw [← hmul]
      exact Monomial.eq_of_factors hnumbers.1
    subst hone
    rw [hvalue]
    exact ⟨⟨.num hfits, fun _ => rfl, fun hne => absurd rfl hne⟩, fun hne => absurd rfl hne⟩
  -- what is divided by is not one, or there would be no bar
  · have hone : d.isOne = false := by
      by_cases hnil : m.denominator.factors = []
      · have hvalue : (Scalar.ofNat r.den).isOne = false :=
          Scalar.isOne_ofInt_of_ne (by simpa using fun hden => hproper ⟨hden, hnil⟩)
        rw [hd.eq_num hnil]
        simpa [isOne, asNum?] using hvalue
      · simp [isOne, (hd.isTerm hnil).2]
    have hraw : e.div d = .over e d := by
      rw [Formula.div, hone]
      by_cases hnil : m.numerator.factors = []
      · have hnone := (hd.isTerm fun hnil' => hnumbers ⟨hnil, hnil'⟩).2
        simp [hnone]
      · simp [(he.isTerm hnil).2]
    rw [hraw]
    refine ⟨⟨?_, fun hnil => ?_, fun _ => ⟨rfl, rfl⟩⟩, fun _ => rfl⟩
    · obtain ⟨hrecip, hinverse, hinverse0⟩ := Scalar.recip?_ofNat r.den_nz hden
      have hd0 : (Scalar.ofNat r.den).isZero = false :=
        Scalar.isZero_ofInt_of_ne (Int.natCast_ne_zero.mpr r.den_nz)
      refine he.closesTo.quotient hd.closesTo ?_ (Poly.elementary_term hfits hm).hasOverflow
      rw [Poly.term_div_term (Scalar.isZero_ofInt_of_ne (Rat.num_ne_zero.mpr hr)) hd0 hrecip
          hinverse hinverse0 _ hm.denominator,
        mul_inv_den hnum hden, hm.numerator_mul_inverse]
    · refine absurd ⟨?_, ?_⟩ hnumbers
      · rw [Monomial.numerator, hnil]
        rfl
      · rw [Monomial.denominator, hnil]
        rfl

/-- **A term is read**, with or without a sign. -/
theorem exists_term {q : ℚ} (hq : 0 < q) (hnum : Scalar.fits q.num = true)
    (hden : Scalar.fits q.den = true) (hm : m.Elementary)
    (hfragments : ∀ f ∈ m.factors, f.1.isOpaque = true → fragments) :
    ∃ e, ReadsProduct (signedText negative (Poly.termText (.exact q) m.factorTexts)).toList e ∧
      e.IsTermOf fragments (.exact (if negative then -q else q)) m ∧
      (negative = false → m.factors ≠ [] → e.neg = .minus e) := by
  -- the numerator carries the sign
  set r : ℚ := if negative then -q else q with hr
  have hrden : r.den = q.den := by
    rw [hr]
    cases negative <;> simp
  have hrnum : signedInt negative q.num.natAbs = r.num := by
    have habs : (q.num.natAbs : ℤ) = q.num := Int.natAbs_of_nonneg (Rat.num_pos.mpr hq).le
    rw [hr, signedInt, habs]
    cases negative <;> simp
  have hrfits : Scalar.fits r.num = true := by
    rw [hr]
    cases negative with
    | false => exact hnum
    | true => simpa using Scalar.fits_neg hnum
  have hr0 : r ≠ 0 := by
    rw [hr]
    cases negative <;> simp [hq.ne']
  have hpos : ∀ f ∈ m.numerator.factors, 0 < f.2 := fun f hf => by
    simpa using (List.mem_filter.mp hf).2
  have hposDenominator : ∀ f ∈ m.denominator.factors, 0 < f.2 := fun f hf => by
    obtain ⟨g, hg, rfl⟩ := List.mem_map.mp hf
    have hneg : g.2 < 0 := by simpa using (List.mem_filter.mp hg).2
    show 0 < -g.2
    omega
  have hfragmentsNumerator : ∀ f ∈ m.numerator.factors, f.1.isOpaque = true → fragments :=
    fun f hf => hfragments f (List.mem_filter.mp hf).1
  have hfragmentsDenominator : ∀ f ∈ m.denominator.factors, f.1.isOpaque = true → fragments :=
    fun f hf => by
      obtain ⟨g, hg, rfl⟩ := List.mem_map.mp hf
      exact hfragments g (List.mem_filter.mp hg).1
  obtain ⟨e, hread, hterm, hneg, -, -⟩ := exists_productOf negative
    (Scalar.fits_natAbs hnum) (Int.natAbs_ne_zero.mpr (Rat.num_ne_zero.mpr hq.ne')) hm.numerator
    hfragmentsNumerator hpos
  rw [hrnum] at hterm
  by_cases hwhole : q.den = 1 ∧ m.denominator.factors = []
  · have hnumerator : m.numerator = m := by
      have hmul := hm.numerator_mul_inverse
      rwa [Monomial.mul, Monomial.inverse, Monomial.pow, hwhole.2] at hmul
    have hvalue : Scalar.ofInt r.num = .exact r := by
      rw [Scalar.ofInt_eq, Rat.coe_int_num_of_den_eq_one (hrden.trans hwhole.1)]
    have htext := (termText_eq (.exact q) m).trans (if_pos hwhole)
    rw [htext]
    rw [hnumerator] at hread hterm hneg ⊢
    exact ⟨e, hread, hvalue ▸ hterm, hneg⟩
  · obtain ⟨d, hdread, hdterm⟩ := exists_divisor hden q.den_nz hm.denominator hfragmentsDenominator
      hposDenominator
    rw [← hrden] at hdterm
    obtain ⟨hquotient, hminus⟩ := hterm.div hrfits (hrden ▸ hden) hr0 hm hdterm
      (hrden.symm ▸ hwhole)
    refine ⟨e.div d, ?_, hquotient, fun _ => hminus⟩
    have hdiv := hread.div hdread
    have htext := (termText_eq (.exact q) m).trans (if_neg hwhole)
    rw [htext]
    cases negative with
    | false => simpa [signedText, Scalar.numer, Scalar.denom] using hdiv
    | true => simpa [signedText, Scalar.numer, Scalar.denom] using hdiv

end Product

/-! ## Sums

A term may be a number, and a number is kept at the end of a sum from wherever
it was read.  So the formula of the first `k` terms is described by the terms
that it has, in an order that nobody needs to know (`Formula.IsSumOf`); adding a
term that differs from all of these keeps the description. -/

namespace Formula

/-- A sum of terms and of a number, which is left out if it is zero. -/
def joined (ts : List Formula) (c : Scalar) : Formula :=
  sumOf (if c.isZero then ts else ts ++ [.num c])

variable {ts : List Formula} {c : Scalar}

/-- The operands of a sum are its terms and what folds to its number. -/
theorem addends_joined (hts : ∀ e ∈ ts, IsTerm e) (hc : c.Fits) :
    ((joined ts c).addends.filterMap asNum?).foldlM Scalar.add? 0 = some c ∧
      ((joined ts c).addends.filter fun e => e.asNum?.isNone) = ts := by
  have hnone : ts.filterMap asNum? = [] :=
    List.filterMap_eq_nil_iff.mpr fun e he => (hts e he).2
  have hkept : ts.filter (fun e => e.asNum?.isNone) = ts :=
    List.filter_eq_self.mpr fun e he => by rw [(hts e he).2]; rfl
  -- the number is left out of the sum just if it is zero
  cases hzero : c.isZero with
  | true =>
      have hvalue := hc.eq_zero hzero
      subst hvalue
      cases hcases : ts with
      | nil => exact ⟨Scalar.zero_add? hc, rfl⟩
      | cons t more =>
          have hne : ts ≠ [] := by simp [hcases]
          have haddends : (joined ts 0).addends = ts := addends_sumOf hne hts
          rw [← hcases, haddends, hnone, hkept]
          exact ⟨rfl, rfl⟩
  | false =>
      have haddends : (joined ts c).addends = ts ++ [.num c] := by
        rw [joined, hzero, if_neg Bool.false_ne_true]
        match ts with
        | [] | [_] | _ :: _ :: _ => rfl
      rw [haddends, List.filterMap_append, hnone, List.filter_append, hkept]
      exact ⟨by simp [asNum?, Scalar.zero_add? hc], by simp [asNum?]⟩

/-- A term is added behind the other terms. -/
theorem joined_add_term {e : Formula} (hts : ∀ e ∈ ts, IsTerm e) (hc : c.Fits) (he : IsTerm e) :
    (joined ts c).add e = joined (ts ++ [e]) c := by
  obtain ⟨hfold, hkept⟩ := addends_joined hts hc
  have habsorb : absorb Scalar.add? 0 ((joined ts c).addends ++ e.addends) = (c, ts ++ [e]) := by
    have hnumbers : (((joined ts c).addends ++ e.addends).filterMap asNum?).foldlM Scalar.add? 0 =
        some c := by
      rw [he.1, List.filterMap_append, List.filterMap_cons_none he.2, List.filterMap_nil,
        List.append_nil, hfold]
    rw [absorb_eq hnumbers, List.filter_append, hkept, he.1]
    simp [he.2]
  rw [add_eq_sumOf habsorb]
  rfl

/-- A number is added to a sum that has none. -/
theorem joined_add_num {v : Scalar} (hts : ∀ e ∈ ts, IsTerm e) (hv : v.Fits) :
    (joined ts 0).add (.num v) = joined ts v := by
  obtain ⟨hfold, hkept⟩ := addends_joined hts Scalar.zero_fits
  have habsorb : absorb Scalar.add? 0 ((joined ts 0).addends ++ (num v).addends) = (v, ts) := by
    have hnumbers : (((joined ts 0).addends ++ (num v).addends).filterMap asNum?).foldlM
        Scalar.add? 0 = some v := by
      rw [List.filterMap_append, List.foldlM_append, hfold]
      simp [addends, asNum?, Scalar.zero_add? hv]
    rw [absorb_eq hnumbers, List.filter_append, hkept]
    simp [addends, asNum?]
  rw [add_eq_sumOf habsorb]
  rfl

end Formula

section Term

variable {fragments : Prop}

/-- The opposite of a term is the term with the opposite coefficient. -/
theorem Formula.IsTermOf.neg {e : Formula} {c : Scalar} {m : Monomial}
    (he : e.IsTermOf fragments c m) (hc : c.Fits) (hc0 : c.isZero = false) (hm : m.Elementary)
    (hneg : m.factors ≠ [] → e.neg = .minus e) : e.neg.IsTermOf fragments (-c) m := by
  by_cases hnil : m.factors = []
  · have hone : m = .one := Monomial.eq_of_factors hnil
    rw [he.eq_num hnil, neg_num hc, hone]
    exact ⟨.num hc.neg, fun _ => rfl, fun hne => absurd rfl hne⟩
  · rw [hneg hnil]
    refine ⟨?_, fun h => absurd h hnil, fun _ => ⟨rfl, rfl⟩⟩
    exact he.closesTo.minus (Poly.neg_term hc0 m) (Poly.elementary_term hc.neg hm).hasOverflow

/-- The text of a term is that of the opposite term. -/
theorem termText_neg (q : ℚ) (factors : List (ℤ × String)) :
    Poly.termText (.exact (-q)) factors = Poly.termText (.exact q) factors := by
  have hnumer : (Scalar.exact (-q)).numer.natAbs = (Scalar.exact q).numer.natAbs := by
    simp [Scalar.numer]
  have hdenom : (Scalar.exact (-q)).denom = (Scalar.exact q).denom := Rat.neg_den q
  simp only [Poly.termText, hnumer, hdenom]

/-- A term behind a sum, with its sign between blanks. -/
def pieceText (t : Monomial × Scalar) : String :=
  (if t.2.isNegative then " - " else " + ") ++ Poly.termText t.2 t.1.factorTexts

/-- **Terms are read**: by themselves, with their sign, and behind a sum. -/
theorem exists_pieces {t : Monomial × Scalar} (hm : t.1.Elementary) (hc : t.2.Fits)
    (hc0 : t.2.isZero = false) (hfragments : ∀ f ∈ t.1.factors, f.1.isOpaque = true → fragments) :
    (∃ e, ReadsProduct
        (signedText t.2.isNegative (Poly.termText t.2 t.1.factorTexts)).toList e ∧
        e.IsTermOf fragments t.2 t.1) ∧
      ∃ e, ReadsPiece (pieceText t).toList e ∧ e.IsTermOf fragments t.2 t.1 := by
  obtain ⟨m, c⟩ := t
  obtain ⟨q, rfl, hnum, hden⟩ := hc
  have hq : q ≠ 0 := by
    rintro rfl
    cases hc0
  simp only [pieceText] at hm ⊢
  -- the first term shows its sign right before it, and any other one between
  -- blanks
  rcases lt_or_gt_of_ne hq with hlt | hgt
  · have hnegative : (Scalar.exact q).isNegative = true := decide_eq_true (Rat.num_neg.mpr hlt)
    have hpos : 0 < -q := neg_pos.mpr hlt
    have hnum' : Scalar.fits (-q).num = true := by simpa using Scalar.fits_neg hnum
    have hden' : Scalar.fits (-q).den = true := by simpa using hden
    obtain ⟨first, hfirst, hfirstTerm, -⟩ := exists_term true hpos hnum' hden' hm hfragments
    obtain ⟨e, hread, hterm, hminus⟩ := exists_term false hpos hnum' hden' hm hfragments
    rw [termText_neg] at hfirst hread
    rw [if_pos rfl, neg_neg] at hfirstTerm
    rw [if_neg Bool.false_ne_true] at hterm
    have hvalue : -Scalar.exact (-q) = .exact q := by
      show (if Scalar.fits (-q).num then Scalar.exact (- -q) else .overflow) = _
      rw [if_pos hnum', neg_neg]
    have hneg := hterm.neg ⟨-q, rfl, hnum', hden'⟩ (Scalar.isZero_exact_of_ne hpos.ne') hm
      (hminus rfl)
    rw [hvalue] at hneg
    rw [hnegative]
    refine ⟨⟨first, hfirst, hfirstTerm⟩, e.neg, ?_, hneg⟩
    simpa [signedText] using hread.minus_piece isBlanks_singleton isBlanks_singleton rfl
  · have hnegative : (Scalar.exact q).isNegative = false :=
      decide_eq_false (Rat.num_pos.mpr hgt).le.not_gt
    obtain ⟨e, hread, hterm, -⟩ := exists_term false hgt hnum hden hm hfragments
    rw [hnegative]
    refine ⟨⟨e, hread, hterm⟩, e, ?_, hterm⟩
    simpa [signedText] using hread.plus_piece isBlanks_singleton isBlanks_singleton

end Term

/-- A number as the list of its terms: none if it is zero. -/
def constantTerms (c : Scalar) : List (Monomial × Scalar) :=
  if c.isZero then [] else [(.one, c)]

/-- The formula is a sum of the given terms.  The one that is a number, if there
is one, stands at the end, wherever it was read. -/
def Formula.IsSumOf (fragments : Prop) (e : Formula) (terms : List (Monomial × Scalar)) : Prop :=
  ∃ (es : List (Formula × Monomial × Scalar)) (c : Scalar),
    e = joined (es.map Prod.fst) c ∧ c.Fits ∧
    (∀ x ∈ es, x.1.IsTermOf fragments x.2.2 x.2.1 ∧ x.2.1.factors ≠ []) ∧
      (es.map Prod.snd ++ constantTerms c).Perm terms

namespace Formula

variable {fragments : Prop} {e d : Formula} {t : Monomial × Scalar}
  {terms : List (Monomial × Scalar)}

/-- One term alone is a sum of it. -/
theorem isSumOf_singleton (he : e.IsTermOf fragments t.2 t.1) (ht : t.2.Fits)
    (ht0 : t.2.isZero = false) : e.IsSumOf fragments [t] := by
  by_cases hnil : t.1.factors = []
  · have hterm : t = (.one, t.2) := Prod.ext (Monomial.eq_of_factors hnil) rfl
    refine ⟨[], t.2, ?_, ht, by simp, ?_⟩
    · rw [he.eq_num hnil, joined, ht0]
      rfl
    · rw [constantTerms, ht0, ← hterm]
      exact .refl _
  · exact ⟨[(e, t)], 0, rfl, Scalar.zero_fits, by simpa using ⟨he, hnil⟩, .refl _⟩

/-- **One more term** with a monomial that did not occur. -/
theorem IsSumOf.add (h : e.IsSumOf fragments terms) (hd : d.IsTermOf fragments t.2 t.1)
    (ht : t.2.Fits) (ht0 : t.2.isZero = false) (hnew : ∀ u ∈ terms, u.1 ≠ t.1) :
    (e.add d).IsSumOf fragments (terms ++ [t]) := by
  obtain ⟨es, c, rfl, hc, hes, hperm⟩ := h
  have hterms : ∀ e ∈ es.map Prod.fst, IsTerm e := by
    intro e he
    obtain ⟨x, hx, rfl⟩ := List.mem_map.mp he
    exact (hes x hx).1.isTerm (hes x hx).2
  by_cases hnil : t.1.factors = []
  · have hterm : t = (.one, t.2) := Prod.ext (Monomial.eq_of_factors hnil) rfl
    -- there was no number before, since its monomial would be that of the new
    -- one
    have hzero : c.isZero = true := by
      by_contra hne
      rw [Bool.not_eq_true] at hne
      have hmem : (Monomial.one, c) ∈ terms := hperm.mem_iff.mp (by simp [constantTerms, hne])
      exact hnew _ hmem (Monomial.eq_of_factors hnil).symm
    have hvalue := hc.eq_zero hzero
    subst hvalue
    refine ⟨es, t.2, ?_, ht, hes, ?_⟩
    · rw [hd.eq_num hnil, joined_add_num hterms ht]
    · rw [constantTerms, ht0, if_neg Bool.false_ne_true, ← hterm]
      have hnone : constantTerms 0 = [] := rfl
      rw [hnone, List.append_nil] at hperm
      exact hperm.append_right [t]
  · refine ⟨es ++ [(d, t)], c, ?_, hc, ?_, ?_⟩
    · rw [joined_add_term hterms hc (hd.isTerm hnil), List.map_append]
      rfl
    · intro x hx
      rcases List.mem_append.mp hx with hx | hx
      · exact hes x hx
      · rw [List.mem_singleton.mp hx]
        exact ⟨hd, hnil⟩
    · rw [List.map_append, List.append_assoc]
      have hswap : ([t] ++ constantTerms c).Perm (constantTerms c ++ [t]) := List.perm_append_comm
      refine (hswap.append_left _).trans ?_
      rw [← List.append_assoc]
      exact hperm.append_right [t]

/-- A step by step sum of terms whose monomials all differ. -/
theorem IsSumOf.foldl_add (h : e.IsSumOf fragments terms)
    (more : List (Formula × Monomial × Scalar))
    (hmore : ∀ x ∈ more, x.1.IsTermOf fragments x.2.2 x.2.1 ∧ x.2.2.Fits ∧ x.2.2.isZero = false)
    (hdistinct : (terms ++ more.map Prod.snd).Pairwise fun s t => s.1 ≠ t.1) :
    (more.foldl (fun sum x => sum.add x.1) e).IsSumOf fragments (terms ++ more.map Prod.snd) := by
  induction more generalizing e terms with
  | nil => simpa using h
  | cons x more ih =>
      obtain ⟨hterm, hfits, hzero⟩ := hmore x (by simp)
      have hnew : ∀ u ∈ terms, u.1 ≠ x.2.1 := fun u hu =>
        (List.pairwise_append.mp hdistinct).2.2 u hu x.2 (by simp)
      have happend : terms ++ (x :: more).map Prod.snd =
          (terms ++ [x.2]) ++ more.map Prod.snd := by simp
      rw [happend] at hdistinct ⊢
      exact ih (h.add hterm hfits hzero hnew) (fun y hy => hmore y (by simp [hy])) hdistinct

/-- The operands of the sum with the terms they stand for. -/
theorem IsSumOf.exists_operands (h : e.IsSumOf fragments terms) :
    ∃ es : List (Formula × Monomial × Scalar), e = sumOf (es.map Prod.fst) ∧
      (∀ x ∈ es, x.1.ClosesTo fragments (Poly.term x.2.2 x.2.1)) ∧
      (es.map Prod.snd).Perm terms := by
  obtain ⟨es, c, rfl, hc, hes, hperm⟩ := h
  cases hzero : c.isZero with
  | true =>
      refine ⟨es, ?_, fun x hx => (hes x hx).1.closesTo, ?_⟩
      · rw [joined, if_pos hzero]
      · simpa [constantTerms, hzero] using hperm
  | false =>
      refine ⟨es ++ [(.num c, .one, c)], ?_, fun x hx => ?_, ?_⟩
      · rw [joined, hzero, List.map_append]
        rfl
      · rcases List.mem_append.mp hx with hx | hx
        · exact (hes x hx).1.closesTo
        · rw [List.mem_singleton.mp hx]
          exact .num hc
      · simpa [constantTerms, hzero] using hperm

/-- **The closed form of a sum of the terms of a polynomial** is the polynomial,
in whatever order they are added. -/
theorem IsSumOf.closesTo {p : Poly} (h : e.IsSumOf fragments terms) (hp : p.Elementary)
    (hterms : terms.Perm p.terms) : e.ClosesTo fragments p := by
  obtain ⟨es, rfl, hes, hperm⟩ := h.exists_operands
  have hmem : ∀ x ∈ es, x.2 ∈ p.terms := fun x hx =>
    (hperm.trans hterms).mem_iff.mp (List.mem_map_of_mem hx)
  -- to add the closed form of a term is to add the term to the list
  have hadd : ∀ x ∈ es, ∀ q : Poly, q.add x.1.closedForm = q.addTerm x.2.1 x.2.2 := by
    intro x hx q
    rw [(hes x hx).closedForm_eq, Poly.add_term (hp.ne_zero _ (hmem x hx))]
  refine .sumOf ?_ ?_ ?_ hp.hasOverflow
  · intro d hd
    obtain ⟨x, hx, rfl⟩ := List.mem_map.mp hd
    rw [hadd x hx, Poly.zero_addTerm ⟨(hp.fits _ (hmem x hx)).bounded, hp.ne_zero _ (hmem x hx)⟩,
      (hes x hx).closedForm_eq]
  · intro d hd
    obtain ⟨x, hx, rfl⟩ := List.mem_map.mp hd
    exact (hes x hx).silent
  · have hsum := hp.foldl_addTerm (hperm.trans hterms)
    rw [List.foldl_map] at hsum ⊢
    rw [← hsum]
    exact List.foldl_ext _ _ _ fun q x hx => hadd x hx q

/-- A sum of two terms or more is not folded into one. -/
theorem IsSumOf.exists_plus (h : e.IsSumOf fragments terms) (hlength : 2 ≤ terms.length) :
    ∃ es, e = .plus es := by
  obtain ⟨es, rfl, -, hperm⟩ := h.exists_operands
  have hlength' : 2 ≤ es.length := by
    rw [← hperm.length_eq, List.length_map] at hlength
    exact hlength
  match es, hlength' with
  | _ :: _ :: _, _ => exact ⟨_, rfl⟩

end Formula

/-! ## The whole text

Terms are sorted by growth before they are written, which changes their order
but not the terms.  The formula that is read has the same terms, and since they
differ, they add up to the polynomial. -/

namespace Poly

theorem sortedTerms_perm (p : Poly) : p.sortedTerms.Perm p.terms :=
  List.mergeSort_perm p.terms _

/-- The monomials of the terms differ, also in the order of the text. -/
theorem Elementary.sortedTerms_distinct {p : Poly} (hp : p.Elementary) :
    p.sortedTerms.Pairwise fun s t => s.1 ≠ t.1 :=
  (p.sortedTerms_perm.pairwise_iff Ne.symm).mpr hp.distinct

/-- The text of a polynomial is its first term with its sign, and each further
term behind a blank and a sign. -/
theorem toList_text_of_cons {p : Poly} {t : Monomial × Scalar} {more : List (Monomial × Scalar)}
    (h : p.sortedTerms = t :: more) :
    p.text.toList = (signedText t.2.isNegative (termText t.2 t.1.factorTexts)).toList ++
      more.flatMap fun t => (pieceText t).toList := by
  have hjoin : ∀ more : List (Monomial × Scalar), (String.join (more.map pieceText)).toList =
      more.flatMap fun t => (pieceText t).toList := by
    intro more
    simp [String.toList_join, List.flatMap_map]
  rw [text_eq, h, List.map_cons, joinTerms, String.toList_append, List.map_map, ← hjoin]
  rfl

/-- **The expanded text is read** as a formula whose closed form is the
polynomial. -/
theorem Elementary.exists_formula {fragments : Prop} {p : Poly} (hp : p.Elementary)
    (hfragments : ∀ t ∈ p.terms, ∀ f ∈ t.1.factors, f.1.isOpaque = true → fragments) :
    ∃ e, ReadsSum p.text.toList e ∧ e.ClosesTo fragments p ∧
      (2 ≤ p.terms.length → ∃ es, e = .plus es) := by
  have hmem : ∀ t, t ∈ p.sortedTerms → t ∈ p.terms := fun t => p.sortedTerms_perm.mem_iff.mp
  have hpieces : ∀ t, t ∈ p.sortedTerms →
      ∃ e, ReadsPiece (pieceText t).toList e ∧ e.IsTermOf fragments t.2 t.1 := fun t ht =>
    (exists_pieces (hp.elementary t (hmem t ht)) (hp.fits t (hmem t ht))
      (hp.ne_zero t (hmem t ht)) (hfragments t (hmem t ht))).2
  -- every term but the first is a piece of the text, and is read as a formula
  -- of its own
  choose! formula hformula using hpieces
  cases hcases : p.sortedTerms with
  | nil =>
      have hperm := p.sortedTerms_perm
      rw [hcases] at hperm
      have hzero : p = zero := eq_of_terms hperm.symm.eq_nil
      have htext : p.text = toString 0 := by
        rw [text_eq, hcases]
        rfl
      rw [htext, hzero]
      exact ⟨.num 0, (readsAtom_nat (n := 0) rfl).readsPower.readsProduct.readsSum,
        .num Scalar.zero_fits, nofun⟩
  | cons t more =>
      have ht := hmem t (by simp [hcases])
      have hmore : ∀ u ∈ more, u ∈ p.sortedTerms := fun u hu => by simp [hcases, hu]
      obtain ⟨first, hfirst, hterm⟩ :=
        (exists_pieces (hp.elementary t ht) (hp.fits t ht) (hp.ne_zero t ht) (hfragments t ht)).1
      -- the text is read as the sum of these
      have hread := ((ReadsTerms.product hfirst).pieces
        (more.map fun t => ((pieceText t).toList, formula t)) fun piece hpiece => by
          obtain ⟨u, hu, rfl⟩ := List.mem_map.mp hpiece
          exact (hformula u (hmore u hu)).1).readsSum
      -- and that sum is one of the terms, in the order in which they are
      -- written
      have hsum := (isSumOf_singleton hterm (hp.fits t ht) (hp.ne_zero t ht)).foldl_add
        (more.map fun u => (formula u, u))
        (fun x hx => by
          obtain ⟨u, hu, rfl⟩ := List.mem_map.mp hx
          have hu' := hmem u (hmore u hu)
          exact ⟨(hformula u (hmore u hu)).2, hp.fits u hu', hp.ne_zero u hu'⟩)
        (by simpa [Function.comp_def, hcases] using hp.sortedTerms_distinct)
      have hterms : [t] ++ (more.map fun u => (formula u, u)).map Prod.snd = p.sortedTerms := by
        simp [hcases, Function.comp_def]
      rw [List.foldl_map] at hread hsum
      rw [hterms] at hsum
      refine ⟨more.foldl (fun sum u => sum.add (formula u)) first, ?_,
        hsum.closesTo hp p.sortedTerms_perm, fun hlength => ?_⟩
      · rw [toList_text_of_cons hcases]
        simpa [List.flatMap_map] using hread
      · exact hsum.exists_plus (p.sortedTerms_perm.length_eq ▸ hlength)

end Poly

end CostAnalysis
