import CostAnalysis.Algebra.Growth
import CostAnalysis.Proofs.Formula.ClosedForm

/-!
# Powers with logarithms

A power `v ^ d`, alone or times `log v`, as a class of growth, as a formula and
as a polynomial.

The three agree: the formula has a single term as its closed form, and the class
of this term is `Growth.polylog v d l` again (`Formula.closedForm_polylog`).  An
integral power is a factor of its term, which is why its exponent has to be held
by a word; any other power is an atom of its own, and stands behind the
logarithm in the order of atoms.

**Where this is used.**  The work of a recurrence is shown by the name of such a
class, and read back by way of the formula.  An exponent of the class may be any
rational number, so both kinds of power are needed, and with each of them the
logarithm.
-/

namespace CostAnalysis

/-! ## Classes -/

namespace Growth

variable {v : String} {d l : Scalar}

/-- A power as a list of powers, where the power zero is left out. -/
def powers (v : String) (d : Scalar) : List (String × Scalar) :=
  if d.isZero then [] else [(v, d)]

theorem powers_of_ne (hd : d.isZero = false) : powers v d = [(v, d)] := by
  simp [powers, hd]

/-- A class has its power and that of its logarithm in two lists. -/
theorem polylog_eq (v : String) (d l : Scalar) :
    polylog v d l = { degrees := powers v d, logs := powers v l } := rfl

/-- The powers of a list with one entry add up to that entry. -/
theorem sum_powers (hd : d.Fits) : (powers v d).foldl (fun acc d => acc + d.2) 0 = d := by
  rw [powers]
  split
  · next hzero => exact (hd.eq_zero hzero).symm
  · exact hd.zero_add

theorem degree_polylog (hd : d.Fits) : (polylog v d l).degree = d :=
  sum_powers hd

theorem logCount_polylog (hl : l.Fits) : (polylog v d l).logCount = l :=
  sum_powers hl

theorem addPowers_nil (v : String) (d : Scalar) : addPowers (powers v d) [] = powers v d := by
  cases hd : d.isZero <;> simp [addPowers, powers, hd]

/-- Adding a power to none gives the power: zero plus a number that fits is the
number. -/
theorem nil_addPowers (hd : d.Fits) : addPowers [] (powers v d) = powers v d := by
  cases hzero : d.isZero with
  | false => simp [addPowers, powers_of_ne hzero, Assoc.alter, hd.zero_add, hzero]
  | true => simp [addPowers, powers, hzero]

theorem constant_mul_polylog (hd : d.Fits) (hl : l.Fits) :
    constant.mul (polylog v d l) = polylog v d l := by
  simp [polylog_eq, mul, constant, nil_addPowers hd, nil_addPowers hl]

/-- A power times a power of the logarithm is the class of both. -/
theorem degrees_mul_logs (hl : l.Fits) : (polylog v d 0).mul (polylog v 0 l) = polylog v d l := by
  have hdegrees : addPowers (powers v d) (powers v 0) = powers v d := addPowers_nil v d
  have hlogs : addPowers (powers v 0) (powers v l) = powers v l := nil_addPowers hl
  simp [polylog_eq, mul, hdegrees, hlogs]

/-- The same product with its factors exchanged. -/
theorem logs_mul_degrees (hd : d.Fits) : (polylog v 0 l).mul (polylog v d 0) = polylog v d l := by
  have hdegrees : addPowers (powers v 0) (powers v d) = powers v d := nil_addPowers hd
  have hlogs : addPowers (powers v l) (powers v 0) = powers v l := addPowers_nil v l
  simp [polylog_eq, mul, hdegrees, hlogs]

/-! ## Classes of terms -/

/-- The class of a polynomial with a single term. -/
theorem ofPoly_term {vars : List String} {m : Monomial} (hm : m.hasOpaque = false) :
    ofPoly vars (Poly.term 1 m) = ofMonomial vars m := by
  have hsign : (1 : Scalar).isNegative = false := rfl
  rw [Poly.term_eq rfl, ofPoly, Poly.hasOpaque]
  simp [Monomial.anyOpaque, hm, ofTerms, dominant, Assoc.lastGreatest?, hsign]

theorem ofAtom_var (v : String) (e : ℤ) : ofAtom [v] e (.var v) = polylog v (.ofInt e) 0 := by
  simp [ofAtom]

/-- The class of a variable alone. -/
theorem ofPoly_var (v : String) : ofPoly [v] (Poly.var v) = polylog v 1 0 := by
  rw [Poly.var, Poly.ofAtom, ofPoly_term rfl]
  show constant.mul (ofAtom [v] 1 (.var v)) = _
  rw [ofAtom_var]
  exact constant_mul_polylog Scalar.one_fits Scalar.zero_fits

/-- The class of the logarithm of a variable. -/
theorem ofAtom_log (v : String) : ofAtom [v] 1 (.log (Poly.var v)) = polylog v 0 1 := by
  have hdegree : (polylog v 1 0).degree = 1 := degree_polylog Scalar.one_fits
  have hpositive : Scalar.cmp 1 0 = .gt := by decide
  rw [ofAtom, ofPoly_var, ofLog, hdegree, hpositive]
  rfl

theorem ofAtom_power (hd : d.Fits) (hd0 : d.isZero = false) :
    ofAtom [v] 1 (.power (Poly.var v) d) = polylog v d 0 := by
  have hone : (1 : Scalar) * (d * .ofInt 1) = d := by
    show (1 : Scalar) * (d * 1) = d
    rw [hd.mul_one, hd.one_mul]
  have hlogs : powers v 0 = [] := rfl
  rw [ofAtom, ofPoly_var, scaled, polylog_eq, polylog_eq, powers_of_ne rfl, powers_of_ne hd0, hlogs]
  simp [hone]

end Growth

/-! ## Terms

A power of a variable is a factor of a term if its exponent is integral and an
atom otherwise, and the logarithm stands on different sides of the two.  The
class of the term is the same in both cases. -/

namespace Monomial

/-- A power of a variable.  A power that is not integral is an atom of its
own. -/
def powerOf (v : String) (d : ℚ) : Monomial :=
  if d.den = 1 then .of (.var v) d.num else .of (.power (Poly.var v) (.exact d)) 1

/-- The logarithm of a variable. -/
def logOf (v : String) : Monomial :=
  .of (.log (Poly.var v)) 1

variable {d : ℚ}

theorem powerOf_natCast (v : String) (k : ℕ) : powerOf v k = .of (.var v) k := by
  simp [powerOf]

theorem powerOf_of_den_ne_one (v : String) (hd : d.den ≠ 1) :
    powerOf v d = .of (.power (Poly.var v) (.exact d)) 1 :=
  if_neg hd

/-- In the order of atoms a logarithm stands behind a variable. -/
theorem of_var_mul_logOf (v : String) {e : ℤ} (he : e ≠ 0) :
    (of (.var v) e).mul (logOf v) = ofFactors [(.var v, e), (.log (Poly.var v), 1)] := by
  have hcmp : compare (Atom.log (Poly.var v)) (.var v) = .gt := rfl
  rw [logOf, mul_of _ _ one_ne_zero, of_eq _ he]
  simp [mulFactor, factors, Assoc.alter, hcmp, saturate_of_natAbs_lt]

/-- In the order of atoms a logarithm stands before a power. -/
theorem of_power_mul_logOf (v : String) (s : Scalar) :
    (of (.power (Poly.var v) s) 1).mul (logOf v) =
      ofFactors [(.log (Poly.var v), 1), (.power (Poly.var v) s, 1)] := by
  have hcmp : compare (Atom.log (Poly.var v)) (.power (Poly.var v) s) = .lt := rfl
  rw [logOf, mul_of _ _ one_ne_zero, of_eq _ one_ne_zero]
  simp [mulFactor, factors, Assoc.alter, hcmp, saturate_of_natAbs_lt]

/-- A power stands alone in a product with one. -/
theorem one_mul_of (a : Atom) {e : ℤ} (he : IsExponent e) : one.mul (.of a e) = .of a e := by
  rw [mul_of one a he.1, of_eq a he.1]
  simp [mulFactor, one, factors, Assoc.alter, saturate_of_natAbs_lt he.2, he.1]

end Monomial

namespace Growth

variable {v : String} {d : ℚ}

/-- The class of the logarithm as a monomial. -/
theorem ofMonomial_logOf (v : String) : ofMonomial [v] (.logOf v) = polylog v 0 1 := by
  show constant.mul (ofAtom [v] 1 (.log (Poly.var v))) = _
  rw [ofAtom_log, constant_mul_polylog Scalar.zero_fits Scalar.one_fits]

section Powers

variable (hd : d ≠ 0) (hfits : (Scalar.exact d).Fits)
include hd hfits

/-- The class of the power as a monomial, by the two cases. -/
theorem ofMonomial_powerOf : ofMonomial [v] (.powerOf v d) = polylog v (.exact d) 0 := by
  by_cases hden : d.den = 1
  · have hvalue : Scalar.ofInt d.num = .exact d := by
      rw [Scalar.ofInt_eq, Rat.coe_int_num_of_den_eq_one hden]
    rw [Monomial.powerOf, if_pos hden, Monomial.of_eq _ (by simpa using hd)]
    show constant.mul (ofAtom [v] d.num (.var v)) = _
    rw [ofAtom_var, hvalue, constant_mul_polylog hfits Scalar.zero_fits]
  · rw [Monomial.powerOf_of_den_ne_one v hden, Monomial.of_eq _ one_ne_zero]
    show constant.mul (ofAtom [v] 1 (.power (Poly.var v) (.exact d))) = _
    rw [ofAtom_power hfits (Scalar.isZero_exact_of_ne hd),
      constant_mul_polylog hfits Scalar.zero_fits]

theorem ofMonomial_powerOf_mul_logOf :
    ofMonomial [v] ((Monomial.powerOf v d).mul (.logOf v)) = polylog v (.exact d) 1 := by
  have hpower := ofMonomial_powerOf (v := v) hd hfits
  have hlog := ofMonomial_logOf v
  by_cases hden : d.den = 1
  · have hnum : d.num ≠ 0 := by simpa using hd
    rw [Monomial.powerOf, if_pos hden] at hpower ⊢
    rw [Monomial.of_eq _ hnum] at hpower
    rw [Monomial.of_var_mul_logOf v hnum]
    show (ofMonomial [v] (.ofFactors [(.var v, d.num)])).mul (ofAtom [v] 1 (.log (Poly.var v))) = _
    rw [hpower, ofAtom_log, degrees_mul_logs Scalar.one_fits]
  · rw [Monomial.powerOf_of_den_ne_one v hden, Monomial.of_power_mul_logOf]
    show (ofMonomial [v] (.logOf v)).mul (ofAtom [v] 1 (.power (Poly.var v) (.exact d))) = _
    rw [hlog, ofAtom_power hfits (Scalar.isZero_exact_of_ne hd), logs_mul_degrees hfits]

end Powers

end Growth

/-! ## Formulas -/

namespace Formula

variable {v : String} {d : ℚ}

theorem closedForm_var (v : String) : (var v).closedForm = Poly.ofAtom (.var v) := rfl

/-- The closed form of the logarithm of a variable is a single term. -/
theorem closedForm_log_var (v : String) : (var v).log.closedForm = Poly.term 1 (.logOf v) := by
  refine closedForm_logOf ?_ rfl
  have hscale : (Poly.term 1 (.logOf v)).scale (.ofInt 1) = Poly.term 1 (.logOf v) := by
    have hone : (1 : Scalar) * .ofInt 1 = 1 := Scalar.one_fits.mul_one
    have hzero : (Scalar.ofInt 1).isZero = false := rfl
    rw [Poly.term_eq rfl, Poly.scale, hzero]
    simp [Poly.terms, hone]
  show Poly.zero.add ((Poly.term 1 (.logOf v)).scale (.ofInt 1)) = _
  rw [hscale, Poly.add_term rfl, Poly.zero_addTerm .one]

/-- A power that is not integral is kept as an atom. -/
theorem power_of_den_ne_one (v : String) (hfits : (Scalar.exact d).Fits) (hd : d.den ≠ 1) :
    (Poly.ofAtom (.var v)).power (Poly.constant (.exact d)) = Poly.term 1 (.powerOf v d) := by
  have hzero : (Scalar.exact d).isZero = false := by
    refine Scalar.isZero_exact_of_ne ?_
    rintro rfl
    exact hd rfl
  have hint : (Scalar.exact d).toInt? = none := by
    simpa [Scalar.toInt?, Scalar.isInteger, Scalar.denom] using hd
  have hscaled : Poly.scaleExponents? [(.var v, 1)] (.exact d) = none := by
    have hproduct : Scalar.ofInt 1 * .exact d = .exact d := hfits.one_mul
    simp [Poly.scaleExponents?, hproduct, hint]
  have hsingle : (Poly.ofAtom (.var v)).singleTerm? = some (.ofFactors [(.var v, 1)], 1) := rfl
  rw [Poly.power, Poly.constant, Poly.asConstant?_term hzero]
  show (Poly.ofAtom (.var v)).powRational (.exact d) = _
  rw [Poly.powRational, hint, hsingle, Monomial.powerOf_of_den_ne_one v hd]
  simp only [Option.filter_none, Option.bind_eq_bind, Option.bind_some, Monomial.factors, hscaled,
    ite_self]
  rfl

/-- A power other than the first is not folded. -/
theorem pow_of_ne_one (e : Formula) (hd : 0 < d) (hone : d ≠ 1) :
    e.pow (num (.exact d)) = .raised e (num (.exact d)) := by
  have hone' : ¬(Scalar.exact d).isOne = true := by rwa [Scalar.isOne_exact]
  have hzero' : (Scalar.exact d).isZero = false := Scalar.isZero_exact_of_ne hd.ne'
  simp [pow, isOne, isZero, asNum?, hone', hzero']

/-- **The closed form of a power is a single term.**  A power that is not
integral is taken by its exponent, and an integral one by repeated
multiplication up to a bound, and as a factor beyond it.
-/
theorem closedForm_pow_var (hv : IsName v.toList) (hd : 0 < d) (hfits : (Scalar.exact d).Fits)
    (hword : d.den = 1 → d.num < 2 ^ 63) :
    ((var v).pow (num (.exact d))).closedForm = Poly.term 1 (.powerOf v d) := by
  have hnum : (num (.exact d)).closedForm = Poly.constant (.exact d) := closedForm_num hfits
  -- an integral power is a factor, any other one is an atom
  by_cases hden : d.den = 1
  · obtain ⟨k, rfl⟩ : ∃ k : ℕ, d = k := by
      obtain ⟨k, hk⟩ := Int.eq_ofNat_of_zero_le (Rat.num_nonneg.mpr hd.le)
      refine ⟨k, ?_⟩
      rw [← Rat.coe_int_num_of_den_eq_one hden, hk]
      rfl
    have hpos : k ≠ 0 := by
      rintro rfl
      exact absurd hd (by simp)
    have hsmall : k < 2 ^ 63 := by
      have hnum := hword hden
      rw [Rat.num_natCast] at hnum
      exact_mod_cast hnum
    have helementary : Atom.IsElementary (.var v) := .var hv
    rw [Monomial.powerOf_natCast]
    by_cases hone : k = 1
    · subst hone
      rfl
    · rw [pow_of_ne_one _ hd (by exact_mod_cast hone)]
      have hmonomial : (Monomial.of (.var v) k).Elementary :=
        Monomial.elementary_of helementary ⟨by omega, by omega⟩
      refine closedForm_raised ?_ (Poly.elementary_term Scalar.one_fits hmonomial).hasOverflow
      rw [closedForm_var, hnum]
      exact Poly.power_ofAtom helementary hpos hsmall
  · have hone : d ≠ 1 := by
      rintro rfl
      exact hden rfl
    rw [pow_of_ne_one _ hd hone]
    refine closedForm_raised ?_ ?_
    · rw [closedForm_var, hnum, power_of_den_ne_one v hfits hden]
    · rw [Monomial.powerOf_of_den_ne_one v hden]
      rfl

/-- The formula of a class. -/
def polylog (v : String) (d l : Scalar) : Formula :=
  let power := if d.isZero then one else (var v).pow (.num d)
  if l.isZero then power else power.mul ((var v).log.pow (.num l))

/-- A product with one is folded. -/
theorem one_mul_log (v : String) : one.mul (var v).log = (var v).log := by
  have hfold : ([one, (var v).log].filterMap asNum?).foldlM Scalar.mul? 1 = some 1 := by
    have hproduct : Scalar.mul? 1 1 = some 1 := Scalar.one_mul? Scalar.one_fits
    have hnums : [one, (var v).log].filterMap asNum? = [1] := rfl
    simp [hnums, hproduct]
  have habsorb : absorb Scalar.mul? 1 (one.multiplicands ++ (var v).log.multiplicands) =
      (1, [(var v).log]) := absorb_eq hfold
  rw [mul_eq_productOf habsorb]
  rfl

/-- The formula of a class without logarithm is the power. -/
theorem polylog_power (v : String) (hd : d ≠ 0) :
    polylog v (.exact d) (.ofNat 0) = (var v).pow (num (.exact d)) := by
  have hzero : (Scalar.ofNat 0).isZero = true := rfl
  rw [polylog, hzero, if_pos rfl, if_neg (by simpa using hd)]

theorem polylog_log (v : String) : polylog v (.exact 0) (.ofNat 1) = (var v).log :=
  one_mul_log v

theorem polylog_power_log (v : String) (hd : d ≠ 0) :
    polylog v (.exact d) (.ofNat 1) = ((var v).pow (num (.exact d))).mul (var v).log := by
  have hone : (Scalar.ofNat 1).isZero = false := rfl
  rw [polylog, hone, if_neg (by decide), if_neg (by simpa using hd)]
  rfl

/-- Nothing in a power is opaque. -/
theorem hasOpaque_powerOf (v : String) (d : ℚ) : (Monomial.powerOf v d).hasOpaque = false := by
  rw [Monomial.powerOf]
  split
  · rw [Monomial.of]
    split <;> rfl
  · rfl

/-- Nothing in the product is opaque, or an overflow. -/
theorem isPlain_powerOf_mul_logOf (v : String) (hd : d ≠ 0) :
    ((Monomial.powerOf v d).mul (.logOf v)).hasOpaque = false ∧
      (Poly.term 1 ((Monomial.powerOf v d).mul (.logOf v))).hasOverflow = false := by
  rw [Monomial.powerOf]
  split
  · rw [Monomial.of_var_mul_logOf v (by simpa using hd)]
    exact ⟨rfl, rfl⟩
  · rw [Monomial.of_power_mul_logOf]
    exact ⟨rfl, rfl⟩

/-- A power stands alone in a product with one. -/
theorem one_mul_powerOf (v : String) (hd : 0 < d) (hword : d.den = 1 → d.num < 2 ^ 63) :
    Monomial.one.mul (.powerOf v d) = .powerOf v d := by
  by_cases hden : d.den = 1
  · have hsmall := hword hden
    have hpos : 0 < d.num := Rat.num_pos.mpr hd
    rw [Monomial.powerOf, if_pos hden]
    exact Monomial.one_mul_of _ ⟨by omega, by omega⟩
  · rw [Monomial.powerOf_of_den_ne_one v hden]
    exact Monomial.one_mul_of _ ⟨by decide, by decide⟩

/-- A product of two formulas that are neither numbers nor products. -/
theorem mul_eq_times {a b : Formula} (ha : a.multiplicands = [a]) (hb : b.multiplicands = [b])
    (ha' : a.asNum? = none) (hb' : b.asNum? = none) : a.mul b = .times [a, b] := by
  have hall : ∀ e ∈ [a, b], e.asNum? = none := by simp [ha', hb']
  have hzero : (1 : Scalar).isZero = false := rfl
  have hone : (1 : Scalar).isOne = true := rfl
  have habsorb : absorb Scalar.mul? 1 (a.multiplicands ++ b.multiplicands) = (1, [a, b]) := by
    rw [ha, hb]
    exact absorb_of_asNum?_eq_none hall
  rw [mul_eq_productOf habsorb, hzero, hone]
  rfl

/-- The closed form of the product is the product of the two terms. -/
theorem closedForm_pow_var_mul_log (hv : IsName v.toList) (hd : 0 < d)
    (hfits : (Scalar.exact d).Fits) (hword : d.den = 1 → d.num < 2 ^ 63) :
    (((var v).pow (num (.exact d))).mul (var v).log).closedForm =
      Poly.term 1 ((Monomial.powerOf v d).mul (.logOf v)) := by
  have hproduct : (1 : Scalar) * 1 = 1 := Scalar.one_fits.one_mul
  have hmul : ∀ m n : Monomial, (Poly.term 1 m).mul (Poly.term 1 n) = Poly.term 1 (m.mul n) := by
    intro m n
    rw [Poly.term_mul_term rfl rfl, hproduct]
  have hpow : ((var v).pow (num (.exact d))).multiplicands = [(var v).pow (num (.exact d))] ∧
      ((var v).pow (num (.exact d))).asNum? = none := by
    by_cases hone : d = 1
    · subst hone
      exact ⟨rfl, rfl⟩
    · rw [pow_of_ne_one _ hd hone]
      exact ⟨rfl, rfl⟩
  rw [mul_eq_times hpow.1 rfl hpow.2 rfl]
  refine closedForm_times ?_ (isPlain_powerOf_mul_logOf v hd.ne').2
  show (Poly.mul (Poly.term 1 .one) _).mul _ = _
  rw [closedForm_pow_var hv hd hfits hword, closedForm_log_var, hmul, one_mul_powerOf v hd hword,
    hmul]

/-- **A class, its formula and its polynomial agree**: the closed form of the
formula is a single term, and the class of this term is the one that the formula
was made from. -/
theorem closedForm_polylog (hv : IsName v.toList) (hd : 0 ≤ d) (hfits : (Scalar.exact d).Fits)
    (hword : d.den = 1 → d.num < 2 ^ 63) {l : ℕ} (hl : l ≤ 1) :
    ∃ m : Monomial, (polylog v (.exact d) (.ofNat l)).closedForm = Poly.term 1 m ∧
      m.hasOpaque = false ∧ Growth.ofMonomial [v] m = Growth.polylog v (.exact d) (.ofNat l) := by
  obtain rfl | rfl : l = 0 ∨ l = 1 := by omega
  · rcases hd.eq_or_lt with rfl | hd
    · exact ⟨.one, rfl, rfl, rfl⟩
    · rw [polylog_power v hd.ne']
      exact ⟨_, closedForm_pow_var hv hd hfits hword, hasOpaque_powerOf v d,
        Growth.ofMonomial_powerOf hd.ne' hfits⟩
  · rcases hd.eq_or_lt with rfl | hd
    · rw [polylog_log]
      exact ⟨.logOf v, closedForm_log_var v, rfl, Growth.ofMonomial_logOf v⟩
    · rw [polylog_power_log v hd.ne']
      exact ⟨_, closedForm_pow_var_mul_log hv hd hfits hword,
        (isPlain_powerOf_mul_logOf v hd.ne').1, Growth.ofMonomial_powerOf_mul_logOf hd.ne' hfits⟩

end Formula

end CostAnalysis
