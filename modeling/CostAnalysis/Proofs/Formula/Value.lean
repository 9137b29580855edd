import CostAnalysis.Proofs.Formula.Operands
import CostAnalysis.Proofs.Poly.Order
import CostAnalysis.Proofs.Reading

/-!
# The values of constructed formulas

The functions that build formulas simplify on the way, and this module says that
nothing is lost: under every reading the value of `a.add b` is the sum of the
values, that of `body.sum i s t` the finite sum, and so on.

**What holds always.**  Sums, differences, opposites, products and summations.
A constant that would overflow is not folded, and a mark that is there already
is kept, so these laws need no condition, whatever number the mark is read as.
They hold in any commutative ring in which formulas are read (`RingValue`).

**What needs a condition.**  A quotient of two numbers is the mark if it does
not fit (`value_div`).  Minima and maxima with zero are decided by the rule that
costs are not negative, and those of two numbers by the order of scalars, which
is that of the numbers as long as these are integers of their word (`value_min`,
`value_max`).
-/

namespace CostAnalysis

namespace Reading

variable (I : Reading)

/-- A quotient that is no mark has the quotient of the values. -/
theorem scalar_div? {x y s : Scalar} (h : Scalar.div? x y = some s) (hs : s.isOverflow = false) :
    I.scalar s = I.scalar x / I.scalar y := by
  obtain ⟨r, hr, rfl⟩ := Option.map_eq_some_iff.mp h
  rw [I.scalar_mul hs]
  have hrecip : I.scalar r = (I.scalar y)⁻¹ := by
    cases y with
    | overflow =>
        cases hr
        exact absurd (Scalar.isOverflow_mul hs).2 (by decide)
    | exact q =>
        rw [Scalar.recip?, Scalar.ofFraction?] at hr
        split at hr
        · cases hr
        · cases hr
          show Rat.divInt q.den q.num = q⁻¹
          rw [Rat.inv_def]
  rw [hrecip, div_eq_mul_inv]

/-- The lesser of two integers of their word is the minimum of the values. -/
theorem scalar_least {x y : Scalar} (hx : x.Integral) (hy : y.Integral) :
    I.scalar (Scalar.least x y) = min (I.scalar x) (I.scalar y) := by
  obtain ⟨z, rfl, hz⟩ := hx
  obtain ⟨w, rfl, hw⟩ := hy
  have hvalue : ∀ z : ℤ, I.scalar (.ofInt z) = z := fun z => rfl
  unfold Scalar.least
  simp only [beq_iff_eq, Scalar.cmp_ofInt hz hw, Std.compare_eq_gt]
  split
  · next hlt => rw [hvalue, hvalue, min_eq_right (by exact_mod_cast hlt.le)]
  · next hge => rw [hvalue, hvalue, min_eq_left (by exact_mod_cast not_lt.mp hge)]

theorem scalar_greatest {x y : Scalar} (hx : x.Integral) (hy : y.Integral) :
    I.scalar (Scalar.greatest x y) = max (I.scalar x) (I.scalar y) := by
  obtain ⟨z, rfl, hz⟩ := hx
  obtain ⟨w, rfl, hw⟩ := hy
  have hvalue : ∀ z : ℤ, I.scalar (.ofInt z) = z := fun z => rfl
  unfold Scalar.greatest
  simp only [beq_iff_eq, Scalar.cmp_ofInt hz hw, Std.compare_eq_gt]
  split
  · next hlt => rw [hvalue, hvalue, max_eq_left (by exact_mod_cast hlt.le)]
  · next hge => rw [hvalue, hvalue, max_eq_right (by exact_mod_cast not_lt.mp hge)]

end Reading

namespace Formula

/-! ## Values in a ring

The laws of sums, products and opposites are those of a commutative ring in
which numbers are read, and nothing else about values is used for them.  So they
are proved for any such ring and hold of rational values, of values with marks,
and of Laurent polynomials. -/

/-- Formulas are read in a commutative ring in such a way that sums, products
and opposites are those of the ring, and what plainly is a number counts as that
number. -/
structure RingValue {R : Type u} [CommRing R] (number : ℚ →+* R) (val : Formula → R) : Prop where
  plus (ts : List Formula) : val (.plus ts) = (ts.map val).sum
  times (fs : List Formula) : val (.times fs) = (fs.map val).prod
  minus (a : Formula) : val (.minus a) = -val a
  of_asNum? {e : Formula} {q : ℚ} : e.asNum? = some (.exact q) → val e = number q

namespace RingValue

variable {R : Type u} [CommRing R] {number : ℚ →+* R} {val : Formula → R}
  (h : RingValue number val) (a b : Formula)
include h

/-- **Folding keeps the value.**  It is stated for any operation that the
constants are combined by, since sums and products are folded in the same
way. -/
theorem foldr_absorb {combine : Scalar → Scalar → Option Scalar} (op : R → R → R)
    [Std.Associative op] [Std.Commutative op] (unit : R)
    (hcombine : ∀ p y s, combine (.exact p) y = some s →
      ∃ q r, y = .exact q ∧ s = .exact r ∧ number r = op (number p) (number q))
    {p : ℚ} {es kept : List Formula} {total : Scalar}
    (habsorb : absorb combine (.exact p) es = (total, kept)) :
    ∃ r, total = .exact r ∧ op (number r) ((kept.map val).foldr op unit) =
      op (number p) ((es.map val).foldr op unit) := by
  induction es generalizing p kept with
  | nil =>
      obtain ⟨rfl, rfl⟩ := Prod.mk.inj habsorb
      exact ⟨p, rfl, rfl⟩
  | cons e es ih =>
      cases hfold : e.asNum?.bind (combine (.exact p)) with
      | some folded =>
          -- the operand has gone into the constant
          obtain ⟨v, hv, hfolded⟩ := Option.bind_eq_some_iff.mp hfold
          obtain ⟨q, s, rfl, rfl, hs⟩ := hcombine p v folded hfolded
          simp only [absorb, hfold] at habsorb
          obtain ⟨r, hr, heq⟩ := ih habsorb
          refine ⟨r, hr, ?_⟩
          rw [heq, hs, List.map_cons, List.foldr_cons, h.of_asNum? hv]
          ac_rfl
      | none =>
          simp only [absorb, hfold] at habsorb
          obtain ⟨rfl, rfl⟩ := Prod.mk.inj habsorb
          obtain ⟨r, hr, heq⟩ := ih rfl
          refine ⟨r, hr, ?_⟩
          -- the operand is kept, and has to be moved past the constant
          simp only [List.map_cons, List.foldr_cons]
          calc op (number r) (op (val e) (((absorb combine (.exact p) es).2.map val).foldr op unit))
              = op (val e) (op (number r)
                (((absorb combine (.exact p) es).2.map val).foldr op unit)) := by ac_rfl
            _ = op (val e) (op (number p) ((es.map val).foldr op unit)) := by rw [heq]
            _ = op (number p) (op (val e) ((es.map val).foldr op unit)) := by ac_rfl

theorem num (q : ℚ) : val (.num (.exact q)) = number q :=
  h.of_asNum? rfl

/-- What is put together as a sum counts as the sum. -/
theorem sumOf (ts : List Formula) : val (Formula.sumOf ts) = (ts.map val).sum := by
  match ts with
  | [] => exact (h.num 0).trans number.map_zero
  | [t] => exact List.sum_singleton.symm
  | t :: u :: rest => exact h.plus (t :: u :: rest)

theorem productOf (fs : List Formula) : val (Formula.productOf fs) = (fs.map val).prod := by
  match fs with
  | [] => exact h.times []
  | [f] => exact List.prod_singleton.symm
  | f :: g :: rest => exact h.times (f :: g :: rest)

/-- The addends of a formula add up to it. -/
theorem addends : (a.addends.map val).sum = val a := by
  cases a with
  | plus ts => exact (h.plus ts).symm
  | _ => exact List.sum_singleton

theorem multiplicands : (a.multiplicands.map val).prod = val a := by
  cases a with
  | times fs => exact (h.times fs).symm
  | _ => exact List.prod_singleton

/-- **Sums.** -/
theorem add : val (a.add b) = val a + val b := by
  obtain ⟨total, terms, habsorb⟩ : ∃ total terms,
      absorb Scalar.add? (.exact 0) (a.addends ++ b.addends) = (total, terms) := ⟨_, _, rfl⟩
  obtain ⟨r, rfl, hfold⟩ := h.foldr_absorb (· + ·) 0 (fun p y s hs => by
    cases y with
    | overflow => cases hs
    | exact q => exact ⟨q, p + q, rfl, Scalar.eq_of_add? hs, number.map_add p q⟩) habsorb
  rw [← List.sum_eq_foldr, ← List.sum_eq_foldr, List.map_append, List.sum_append, h.addends,
    h.addends, map_zero, zero_add] at hfold
  rw [add_eq_sumOf habsorb, h.sumOf, ← hfold]
  split
  · next hzero => rw [(Scalar.isZero_exact r).mp hzero, map_zero, zero_add]
  · rw [List.map_append, List.sum_append, add_comm, List.map_singleton, List.sum_singleton, h.num]

/-- **Products.** -/
theorem mul : val (a.mul b) = val a * val b := by
  obtain ⟨total, factors, habsorb⟩ : ∃ total factors,
      absorb Scalar.mul? (.exact 1) (a.multiplicands ++ b.multiplicands) = (total, factors) :=
    ⟨_, _, rfl⟩
  obtain ⟨r, rfl, hfold⟩ := h.foldr_absorb (· * ·) 1 (fun p y s hs => by
    cases y with
    | overflow => cases hs
    | exact q => exact ⟨q, p * q, rfl, Scalar.eq_of_mul? hs, number.map_mul p q⟩) habsorb
  rw [← List.prod_eq_foldr, ← List.prod_eq_foldr, List.map_append, List.prod_append,
    h.multiplicands, h.multiplicands, map_one, one_mul] at hfold
  -- the folded number is zero, or it is one and left out, or it is written in
  -- front
  rw [mul_eq_productOf habsorb, ← hfold]
  split
  · next hzero =>
    rw [(Scalar.isZero_exact r).mp hzero, map_zero, zero_mul]
    exact (h.num 0).trans number.map_zero
  · rw [h.productOf]
    split
    · rw [List.map_cons, List.prod_cons, h.num]
    · next hone =>
      rw [Bool.or_eq_true, not_or, Bool.not_eq_true', Bool.not_eq_false] at hone
      rw [(Scalar.isOne_exact r).mp hone.1, map_one, one_mul]

/-- **Opposites.** -/
theorem neg : val a.neg = -val a := by
  cases a with
  | num v =>
      rw [Formula.neg]
      split
      · exact h.minus _
      · next hoverflow =>
        rcases Scalar.neg_cases v with hneg | ⟨p, rfl, hneg⟩
        · exact absurd (congrArg Scalar.isOverflow hneg) hoverflow
        · rw [hneg, h.num, h.num, map_neg]
  | minus e => exact ((neg_neg _).symm.trans (congrArg _ (h.minus e).symm))
  | _ => exact h.minus _

end RingValue

/-! ## Values under a reading

The laws of a ring are instances of those above.  A quotient is beside them:
where it is folded, its value is that of the number, unless this is the mark. -/

variable (I : Reading) (a b : Formula)

/-- A formula that plainly is a number has its value. -/
theorem value_of_asNum? {e : Formula} {v : Scalar} (h : e.asNum? = some v) :
    e.value I = I.scalar v := by
  cases e with
  | num w =>
      cases h
      rfl
  | resolved p => exact p.value_of_asConstant? I h
  | _ => cases h

/-- The value of a sum is that of a list of values. -/
theorem sumValue_eq_sum (ts : List Formula) :
    sumValue ts I = (ts.map fun e => e.value I).sum := by
  induction ts with
  | nil => rfl
  | cons t ts ih => rw [sumValue, ih, List.map_cons, List.sum_cons]

theorem productValue_eq_prod (fs : List Formula) :
    productValue fs I = (fs.map fun e => e.value I).prod := by
  induction fs with
  | nil => rfl
  | cons f fs ih => rw [productValue, ih, List.map_cons, List.prod_cons]

/-- Values under a reading are such a reading in a ring. -/
theorem ringValue_value : RingValue (RingHom.id ℚ) fun e => e.value I where
  plus ts := sumValue_eq_sum I ts
  times fs := productValue_eq_prod I fs
  minus _ := rfl
  of_asNum? h := value_of_asNum? I h

@[simp] theorem value_add : (a.add b).value I = a.value I + b.value I :=
  (ringValue_value I).add a b

@[simp] theorem value_mul : (a.mul b).value I = a.value I * b.value I :=
  (ringValue_value I).mul a b

@[simp] theorem value_neg : a.neg.value I = -a.value I :=
  (ringValue_value I).neg a

@[simp] theorem value_sub : (a.sub b).value I = a.value I - b.value I := by
  rw [sub, value_add, value_neg, sub_eq_add_neg]

@[simp] theorem value_scale (factor : Scalar) :
    (a.scale factor).value I = I.scalar factor * a.value I :=
  value_mul I _ _

/-- What plainly is zero has the value zero. -/
theorem value_of_isZero {e : Formula} (h : e.isZero = true) : e.value I = 0 := by
  obtain ⟨v, hv, hzero⟩ := exists_of_isZero h
  rw [value_of_asNum? I hv, I.scalar_of_isZero hzero]

theorem value_of_isOne {e : Formula} (h : e.isOne = true) : e.value I = 1 := by
  obtain ⟨v, hv, hone⟩ := exists_of_isOne h
  rw [value_of_asNum? I hv, I.scalar_of_isOne hone]

/-- A quotient that is not the mark has the quotient of the values. -/
theorem value_div (h : a.div b ≠ .num .overflow) : (a.div b).value I = a.value I / b.value I := by
  rw [div] at h ⊢
  split
  · next hone => rw [value_of_isOne I hone, div_one]
  · next hone =>
    rw [if_neg hone] at h
    split
    · next x y hx hy =>
      rw [hx, hy] at h
      split
      · next q hq =>
        have hq' : q.isOverflow = false := by
          cases q with
          | exact q => rfl
          | overflow => simp [hq] at h
        rw [value_of_asNum? I hx, value_of_asNum? I hy]
        exact I.scalar_div? hq hq'
      · rfl
    · rfl

/-! ## Summations

The value of a summation is the finite sum over its range.  One of zero is not
built at all, and it has that value, too. -/

/-- **The value of a summation is the finite sum**, also where the constructor
folds an empty or a constant one. -/
@[simp] theorem value_sum (body start stop : Formula) (index : String) :
    (body.sum index start stop).value I =
      ∑ x ∈ Finset.Icc ⌈start.value I⌉ ⌊stop.value I⌋, body.value (I.set index x) := by
  rw [sum]
  split
  · next hzero =>
    symm
    exact Finset.sum_eq_zero fun x _ => value_of_isZero _ hzero
  · rfl

/-! ## Minima and maxima

The order of two scalars is decided by rounded quotients.  On integers of a word
these are exact, and what is added up from such integers is one again or is left
as a sum, so it is enough to look at the terms that are numbers
(`IntegralTerms`). -/

mutual

/-- Formulas that compare as equal are equal. -/
theorem eq_of_beq : ∀ a b : Formula, beq a b = true → a = b
  | .num v, b, h => by
      cases b with
      | num w => rw [LawfulBEq.eq_of_beq (h : (v == w) = true)]
      | _ => cases h
  | .var v, b, h => by
      cases b with
      | var w => rw [LawfulBEq.eq_of_beq (h : (v == w) = true)]
      | _ => cases h
  | .unknown v, b, h => by
      cases b with
      | unknown w => rw [LawfulBEq.eq_of_beq (h : (v == w) = true)]
      | _ => cases h
  | .plus ts, b, h => by
      cases b with
      | plus us => rw [eq_of_beqList ts us h]
      | _ => cases h
  | .times ts, b, h => by
      cases b with
      | times us => rw [eq_of_beqList ts us h]
      | _ => cases h
  | .over a c, b, h => by
      cases b with
      | «over» a' c' =>
          rw [beq, Bool.and_eq_true] at h
          rw [eq_of_beq a a' h.1, eq_of_beq c c' h.2]
      | _ => cases h
  | .raised a c, b, h => by
      cases b with
      | raised a' c' =>
          rw [beq, Bool.and_eq_true] at h
          rw [eq_of_beq a a' h.1, eq_of_beq c c' h.2]
      | _ => cases h
  | .minus a, b, h => by
      cases b with
      | minus a' => rw [eq_of_beq a a' h]
      | _ => cases h
  | .logOf a, b, h => by
      cases b with
      | logOf a' => rw [eq_of_beq a a' h]
      | _ => cases h
  | .minOf a c, b, h => by
      cases b with
      | minOf a' c' =>
          rw [beq, Bool.and_eq_true] at h
          rw [eq_of_beq a a' h.1, eq_of_beq c c' h.2]
      | _ => cases h
  | .maxOf a c, b, h => by
      cases b with
      | maxOf a' c' =>
          rw [beq, Bool.and_eq_true] at h
          rw [eq_of_beq a a' h.1, eq_of_beq c c' h.2]
      | _ => cases h
  | .sumOver a i s t, b, h => by
      cases b with
      | sumOver a' i' s' t' =>
          simp only [beq, Bool.and_eq_true] at h
          rw [eq_of_beq a a' h.1.1.1, LawfulBEq.eq_of_beq h.1.1.2, eq_of_beq s s' h.1.2,
            eq_of_beq t t' h.2]
      | _ => cases h
  | .resolved p, b, h => by
      cases b with
      | resolved q => rw [Poly.eq_of_cmp p q (LawfulBEq.eq_of_beq h)]
      | _ => cases h

/-- Lists that the test takes for equal are equal. -/
theorem eq_of_beqList : ∀ as bs : List Formula, beqList as bs = true → as = bs
  | [], bs, h => by
      cases bs with
      | nil => rfl
      | cons b bs => cases h
  | a :: as, bs, h => by
      cases bs with
      | nil => cases h
      | cons b bs =>
          rw [beqList, Bool.and_eq_true] at h
          rw [eq_of_beq a b h.1, eq_of_beqList as bs h.2]

end

/-- The numbers among the terms of the formula are integers of their word, and
no term is a sum.  Minima and maxima are only taken of such formulas. -/
def IntegralTerms (e : Formula) : Prop :=
  ∀ t ∈ e.addends, t.addends = [t] ∧ ∀ v, t.asNum? = some v → v.Integral

namespace IntegralTerms

variable {a b}

/-- A formula that is no sum only has to be looked at itself. -/
theorem of_addends (ha : a.addends = [a]) (h : ∀ v, a.asNum? = some v → v.Integral) :
    IntegralTerms a := by
  intro t ht
  rw [ha] at ht
  cases List.mem_singleton.mp ht
  exact ⟨ha, h⟩

/-- Zero is of this kind. -/
theorem zero : IntegralTerms Formula.zero :=
  of_addends rfl fun v hv => by
    cases hv
    exact Scalar.zero_integral

theorem int {z : ℤ} (hz : Scalar.fits z = true) : IntegralTerms (Formula.int z) :=
  of_addends rfl fun v hv => by
    cases hv
    exact ⟨z, rfl, hz⟩

/-- If the formula itself is a number, it is an integer of its word. -/
theorem integral (h : IntegralTerms a) {v : Scalar} (hv : a.asNum? = some v) : v.Integral := by
  cases a with
  | plus ts => cases hv
  | _ => exact (h _ (List.mem_singleton.mpr rfl)).2 v hv

/-- A sum of terms that are no sums is, if the numbers among them are. -/
theorem sumOf {ts : List Formula}
    (h : ∀ t ∈ ts, t.addends = [t] ∧ ∀ v, t.asNum? = some v → v.Integral) :
    IntegralTerms (Formula.sumOf ts) := by
  match ts with
  | [] => exact zero
  | [t] => exact of_addends (h t (by simp)).1 (h t (by simp)).2
  | _ :: _ :: _ => exact h

/-- Folding integers gives an integer, and one that fits: what does not is not
folded. -/
theorem absorb {constant : Scalar} {es : List Formula} (hconstant : constant.Integral)
    (h : ∀ t ∈ es, ∀ v, t.asNum? = some v → v.Integral) :
    (Formula.absorb Scalar.add? constant es).1.Integral := by
  induction es generalizing constant with
  | nil => exact hconstant
  | cons e es ih =>
      have hes : ∀ t ∈ es, ∀ v, t.asNum? = some v → v.Integral := fun t ht => h t (by simp [ht])
      unfold Formula.absorb
      split
      · next folded hfolded =>
        obtain ⟨v, hv, hsum⟩ := Option.bind_eq_some_iff.mp hfolded
        exact ih (hconstant.add? (h e (by simp) v hv) hsum) hes
      · exact ih hconstant hes

theorem add (ha : IntegralTerms a) (hb : IntegralTerms b) : IntegralTerms (a.add b) := by
  obtain ⟨total, terms, habsorb⟩ : ∃ total terms,
      Formula.absorb Scalar.add? 0 (a.addends ++ b.addends) = (total, terms) := ⟨_, _, rfl⟩
  have hoperands : ∀ t ∈ a.addends ++ b.addends,
      t.addends = [t] ∧ ∀ v, t.asNum? = some v → v.Integral := by
    intro t ht
    rcases List.mem_append.mp ht with ht | ht
    · exact ha t ht
    · exact hb t ht
  -- the numbers that are folded are integers of their word, and so is their sum
  have htotal : total.Integral := by
    have hfold := absorb Scalar.zero_integral fun t ht => (hoperands t ht).2
    rwa [habsorb] at hfold
  have hterms : ∀ t ∈ terms, t.addends = [t] ∧ ∀ v, t.asNum? = some v → v.Integral :=
    fun t ht => hoperands t (mem_of_mem_absorb habsorb ht)
  rw [add_eq_sumOf habsorb]
  refine sumOf ?_
  intro t ht
  split at ht
  · exact hterms t ht
  · rcases List.mem_append.mp ht with ht | ht
    · exact hterms t ht
    · cases List.mem_singleton.mp ht
      exact ⟨rfl, fun v hv => by cases hv; exact htotal⟩

theorem sum (body start stop : Formula) (index : String) :
    IntegralTerms (body.sum index start stop) := by
  unfold Formula.sum
  split
  · exact zero
  · exact of_addends rfl fun v hv => by cases hv

theorem min (ha : IntegralTerms a) (hb : IntegralTerms b) : IntegralTerms (a.min b) := by
  unfold Formula.min
  split
  · exact zero
  · split
    · exact ha
    · split
      · next x y hx hy =>
        refine of_addends rfl fun v hv => ?_
        cases hv
        rcases Scalar.least_eq x y with h | h <;> rw [h]
        · exact ha.integral hx
        · exact hb.integral hy
      · exact of_addends rfl fun v hv => by cases hv

theorem max (ha : IntegralTerms a) (hb : IntegralTerms b) : IntegralTerms (a.max b) := by
  unfold Formula.max
  split
  · exact hb
  · split
    · exact ha
    · split
      · next x y hx hy =>
        refine of_addends rfl fun v hv => ?_
        cases hv
        rcases Scalar.greatest_eq x y with h | h <;> rw [h]
        · exact ha.integral hx
        · exact hb.integral hy
      · exact of_addends rfl fun v hv => by cases hv

end IntegralTerms

variable {a b}

/-- **The value of a minimum** of costs is the minimum: a zero is the lesser one
as no cost is negative, and numbers are compared as integers. -/
theorem value_min (ha : 0 ≤ a.value I) (hb : 0 ≤ b.value I) (ha' : IntegralTerms a)
    (hb' : IntegralTerms b) : (a.min b).value I = Min.min (a.value I) (b.value I) := by
  unfold min
  split
  · next hzero =>
    rcases Bool.or_eq_true_iff.mp hzero with hzero | hzero
    · rw [value_of_isZero I hzero, min_eq_left hb]
      rfl
    · rw [value_of_isZero I hzero, min_eq_right ha]
      rfl
  · split
    · next hsame => rw [eq_of_beq a b hsame, min_self]
    · split
      · next x y hx hy =>
        rw [value_of_asNum? I hx, value_of_asNum? I hy]
        exact I.scalar_least (ha'.integral hx) (hb'.integral hy)
      · rfl

/-- **The value of a maximum** of costs is the maximum. -/
theorem value_max (ha : 0 ≤ a.value I) (hb : 0 ≤ b.value I) (ha' : IntegralTerms a)
    (hb' : IntegralTerms b) : (a.max b).value I = Max.max (a.value I) (b.value I) := by
  unfold max
  split
  · next hzero => rw [value_of_isZero I hzero, max_eq_right hb]
  · split
    · next hsame =>
      rcases Bool.or_eq_true_iff.mp hsame with hzero | hsame
      · rw [value_of_isZero I hzero, max_eq_left ha]
      · rw [eq_of_beq a b hsame, max_self]
    · split
      · next x y hx hy =>
        rw [value_of_asNum? I hx, value_of_asNum? I hy]
        exact I.scalar_greatest (ha'.integral hx) (hb'.integral hy)
      · rfl

end Formula

end CostAnalysis
