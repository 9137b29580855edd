import CostAnalysis.Proofs.Formula.Canonical
import CostAnalysis.Proofs.Formula.Value
import CostAnalysis.Proofs.Simplification

/-!
# Substitution in expandable formulas

`Formula.substitute` replaces a variable and rebuilds the formula around it, so
constants are folded and nested sums flattened on the way.  For expandable
formulas, which simplification turns into a polynomial in their variables, it
does what it should: the result is expandable again (`Admits.expandable`), shows
no greater degree (`Admits.degree_le`), and has the value of the formula with
the variable set to the value of what was put in its place
(`Admits.value_substitute`).

**What has to be admitted.**  Two places of a formula may not survive a
substitution, and `Admits` rules out no more than those.  A quotient can become
one of two numbers, which is folded and then has to fit its words; and a power
above 64 is only expanded if its base is a variable, so it has to be another
one.
-/

namespace CostAnalysis.Formula

/-! ## Expandable formulas

The class is closed under the constructors, but not under raw nodes: a quotient
of two numbers would be folded when it is rebuilt.  The conditions in its rules
say what is left out. -/

/-- The formulas that are built from numbers and variables by sums, products,
opposites, division by a number other than zero, and natural powers, where those
above 64 are powers of a variable. -/
inductive Expandable : Formula → Prop
  | num (q : ℚ) : Expandable (.num (.exact q))
  | var (name : String) : Expandable (.var name)
  | plus {ts : List Formula} (hts : ∀ e ∈ ts, Expandable e) : Expandable (.plus ts)
  | times {fs : List Formula} (hfs : ∀ e ∈ fs, Expandable e) : Expandable (.times fs)
  | minus {a : Formula} (ha : Expandable a) : Expandable (.minus a)
  | quotient {a : Formula} {q : ℚ} (ha : Expandable a) (hq : q ≠ 0)
      (hnum : Scalar.fits q.num = true) (hden : Scalar.fits q.den = true) :
      Expandable (.over a (.num (.exact q)))
  | raised {a : Formula} {k : ℕ} (ha : Expandable a) (hk : k ≤ 64) :
      Expandable (.raised a (.num (.exact k)))
  | power {name : String} (hname : IsName name.toList) (k : ℕ) :
      Expandable (.raised (.var name) (.num (.exact k)))

/-- A quotient is its numerator, a number, or stays. -/
theorem div_cases (a b : Formula) :
    a.div b = a ∨ (∃ v, a.div b = .num v) ∨ a.div b = .over a b := by
  unfold div
  split
  · exact .inl rfl
  · split
    · split
      · exact .inr (.inl ⟨_, rfl⟩)
      · exact .inr (.inr rfl)
    · exact .inr (.inr rfl)

/-- A quotient is a number only if its numerator is one. -/
theorem div_ne_num {a : Formula} (ha : a.asNum? = none) (b : Formula) (v : Scalar) :
    a.div b ≠ .num v := by
  unfold div
  split
  · rintro rfl
    cases ha
  · rw [ha]
    exact Formula.noConfusion

namespace Expandable

variable {a b : Formula}

/-- A number that is no mark is expandable. -/
theorem of_isOverflow {v : Scalar} (hv : v.isOverflow = false) : Expandable (.num v) := by
  cases v with
  | exact q => exact .num q
  | overflow => cases hv

/-- The addends of an expandable formula are expandable. -/
theorem of_mem_addends (ha : Expandable a) {t : Formula} (ht : t ∈ a.addends) :
    Expandable t := by
  cases a with
  | plus ts =>
      cases ha with
      | plus hts => exact hts t ht
  | _ => rwa [List.mem_singleton.mp ht]

theorem of_mem_multiplicands (ha : Expandable a) {f : Formula} (hf : f ∈ a.multiplicands) :
    Expandable f := by
  cases a with
  | times fs =>
      cases ha with
      | times hfs => exact hfs f hf
  | _ => rwa [List.mem_singleton.mp hf]

/-- Sums of expandable formulas are expandable. -/
theorem sumOf {ts : List Formula} (hts : ∀ e ∈ ts, Expandable e) :
    Expandable (Formula.sumOf ts) := by
  match ts with
  | [] => exact .num 0
  | [t] => exact hts t (by simp)
  | _ :: _ :: _ => exact .plus hts

theorem productOf {fs : List Formula} (hfs : ∀ e ∈ fs, Expandable e) :
    Expandable (Formula.productOf fs) := by
  match fs with
  | [] => exact .times hfs
  | [f] => exact hfs f (by simp)
  | _ :: _ :: _ => exact .times hfs

/-- Adding keeps it. -/
theorem add (ha : Expandable a) (hb : Expandable b) : Expandable (a.add b) := by
  obtain ⟨ts, heq, hts⟩ := exists_add_eq (fun _ => ha.of_mem_addends) (fun _ => hb.of_mem_addends)
    fun _ => of_isOverflow
  rw [heq]
  exact sumOf hts

theorem mul (ha : Expandable a) (hb : Expandable b) : Expandable (a.mul b) := by
  rcases exists_mul_eq (fun _ => ha.of_mem_multiplicands) (fun _ => hb.of_mem_multiplicands)
    fun _ => of_isOverflow with heq | ⟨fs, heq, hfs⟩
  · rw [heq]
    exact .num 0
  · rw [heq]
    exact productOf hfs

theorem neg (ha : Expandable a) : Expandable a.neg := by
  cases a with
  | num v =>
      rw [Formula.neg]
      split
      · exact .minus ha
      · next hover => exact of_isOverflow (Bool.eq_false_iff.mpr hover)
  | minus a =>
      cases ha with
      | minus ha => exact ha
  | _ => exact .minus ha

/-- A quotient by a number that is not the mark. -/
theorem div (ha : Expandable a) {q : ℚ} (hq : q ≠ 0) (hnum : Scalar.fits q.num = true)
    (hden : Scalar.fits q.den = true) (hfold : a.div (.num (.exact q)) ≠ .num .overflow) :
    Expandable (a.div (.num (.exact q))) := by
  rcases div_cases a (.num (.exact q)) with hdiv | ⟨v, hdiv⟩ | hdiv
  · rwa [hdiv]
  · rw [hdiv] at hfold ⊢
    cases v with
    | exact r => exact .num r
    | overflow => exact absurd rfl hfold
  · rw [hdiv]
    exact .quotient ha hq hnum hden

/-- A natural power, which is the base, one, or stays. -/
theorem pow {k : ℕ} (ha : Expandable a)
    (hraised : Expandable (.raised a (.num (.exact k)))) :
    Expandable (a.pow (.num (.exact k))) := by
  unfold Formula.pow
  split
  · exact ha
  · split
    · exact .num 1
    · exact hraised

/-- There are no summations whose bounds could be anything else. -/
theorem integralBounds (ha : Expandable a) (I : Reading) : a.IntegralBounds I := by
  induction ha with
  | num q => trivial
  | var name => trivial
  | plus _ ih => exact allIntegralBounds_of_forall ih
  | times _ ih => exact allIntegralBounds_of_forall ih
  | minus _ ih => exact ih
  | quotient _ _ _ _ ih => exact ⟨ih, trivial⟩
  | raised _ _ ih => exact ⟨ih, trivial⟩
  | power _ k => exact ⟨trivial, trivial⟩

end Expandable

/-! ## Degrees

Folding never raises a degree: numbers have degree zero, and flattening a sum or
a product only moves operands. -/

section Degree

variable {a b : Formula} {d : ℕ}

theorem degree_num (v : Scalar) : (num v).degree = 0 := by
  simp [degree]

/-- A bound for all terms bounds the greatest degree. -/
theorem greatestDegree_le {ts : List Formula} (h : ∀ t ∈ ts, t.degree ≤ d) :
    greatestDegree ts ≤ d := by
  induction ts with
  | nil => exact Nat.zero_le d
  | cons t ts ih =>
      obtain ⟨ht, hts⟩ := List.forall_mem_cons.mp h
      rw [greatestDegree]
      exact Nat.max_le.mpr ⟨ht, ih hts⟩

/-- No addend has a greater degree than the formula. -/
theorem degree_le_of_mem_addends {t : Formula} (ht : t ∈ a.addends) : t.degree ≤ a.degree := by
  cases a with
  | plus ts => exact degree_le_greatestDegree ht
  | _ => exact le_of_eq (congrArg degree (List.mem_singleton.mp ht))

theorem degree_sumOf_le {ts : List Formula} (h : ∀ t ∈ ts, t.degree ≤ d) :
    (sumOf ts).degree ≤ d := by
  match ts with
  | [] => exact Nat.zero_le d
  | [t] => exact h t (by simp)
  | _ :: _ :: _ => exact greatestDegree_le h

/-- A sum shows at most the degrees of its terms. -/
theorem degree_add_le (ha : a.degree ≤ d) (hb : b.degree ≤ d) : (a.add b).degree ≤ d := by
  obtain ⟨ts, heq, hts⟩ := exists_add_eq (P := fun t => t.degree ≤ d)
    (fun _ ht => (degree_le_of_mem_addends ht).trans ha)
    (fun _ ht => (degree_le_of_mem_addends ht).trans hb)
    fun v _ => (degree_num v).trans_le (Nat.zero_le d)
  rw [heq]
  exact degree_sumOf_le hts

/-- Degrees of factors add up. -/
theorem totalDegree_append (fs gs : List Formula) :
    totalDegree (fs ++ gs) = totalDegree fs + totalDegree gs := by
  induction fs with
  | nil => simp [totalDegree]
  | cons f fs ih => rw [List.cons_append, totalDegree, totalDegree, ih, Nat.add_assoc]

/-- The factors of a formula together have its degree. -/
theorem totalDegree_multiplicands (a : Formula) : totalDegree a.multiplicands = a.degree := by
  cases a with
  | times fs => rfl
  | _ => exact Nat.add_zero _

/-- Folding drops numbers only, which have no degree. -/
theorem totalDegree_absorb_le (combine : Scalar → Scalar → Option Scalar) (constant : Scalar)
    (es : List Formula) : totalDegree (absorb combine constant es).2 ≤ totalDegree es := by
  induction es generalizing constant with
  | nil => exact le_rfl
  | cons e es ih =>
      unfold absorb
      split
      · exact (ih _).trans (Nat.le_add_left _ _)
      · exact Nat.add_le_add_left (ih constant) _

theorem degree_productOf (fs : List Formula) : (productOf fs).degree = totalDegree fs := by
  match fs with
  | [] => rfl
  | [f] => exact (Nat.add_zero _).symm
  | _ :: _ :: _ => rfl

/-- A product shows at most the sum of the degrees of its factors. -/
theorem degree_mul_le (a b : Formula) : (a.mul b).degree ≤ a.degree + b.degree := by
  obtain ⟨⟨total, kept⟩, habsorb⟩ :
      ∃ r, absorb Scalar.mul? 1 (a.multiplicands ++ b.multiplicands) = r := ⟨_, rfl⟩
  have hkept : totalDegree kept ≤ a.degree + b.degree := by
    have hle := totalDegree_absorb_le Scalar.mul? 1 (a.multiplicands ++ b.multiplicands)
    rwa [habsorb, totalDegree_append, totalDegree_multiplicands, totalDegree_multiplicands] at hle
  rw [mul_eq_productOf habsorb]
  split
  · exact Nat.zero_le _
  · rw [degree_productOf]
    split
    · rwa [totalDegree, degree_num, Nat.zero_add]
    · exact hkept

/-- The opposite has no greater degree. -/
theorem degree_neg_le (a : Formula) : a.neg.degree ≤ a.degree := by
  cases a with
  | num v =>
      rw [neg]
      split
      · exact le_rfl
      · rw [degree_num]
        exact Nat.zero_le _
  | _ => exact le_rfl

theorem degree_div_le (a b : Formula) : (a.div b).degree ≤ a.degree := by
  rcases div_cases a b with hdiv | ⟨v, hdiv⟩ | hdiv <;> rw [hdiv]
  · rw [degree_num]
    exact Nat.zero_le _
  · exact le_rfl

theorem degree_pow_le (a : Formula) (k : ℕ) : (a.pow (.num (.exact k))).degree ≤ k * a.degree := by
  unfold pow
  split
  · next hone =>
    have hk : (k : ℚ) = 1 := (Scalar.isOne_exact _).mp (by simpa [isOne, asNum?] using hone)
    rw [Nat.cast_eq_one.mp hk, Nat.one_mul]
  · split
    · exact Nat.zero_le _
    · exact (degree_raised a k).le

end Degree

/-! ## Values -/

/-- A natural power has the power of the value. -/
theorem value_pow {I : Reading} (hI : I.ReadsPowers) (a : Formula) (k : ℕ) :
    (a.pow (.num (.exact k))).value I = a.value I ^ k := by
  unfold pow
  split
  · next hone =>
    have hk : (k : ℚ) = 1 := (Scalar.isOne_exact _).mp (by simpa [isOne, asNum?] using hone)
    rw [Nat.cast_eq_one.mp hk, pow_one]
  · split
    · next hzero =>
      have hk : (k : ℚ) = 0 := (Scalar.isZero_exact _).mp (by simpa [isZero, asNum?] using hzero)
      rw [Nat.cast_eq_zero.mp hk, pow_zero]
      rfl
    · exact hI _ k

variable {I J : Reading} {g : Formula → Formula}

/-- Adding one by one adds the values. -/
theorem value_foldl_add (es : List Formula) (acc : Formula) :
    (es.foldl add acc).value I = acc.value I + sumValue es I := by
  induction es generalizing acc with
  | nil => exact (add_zero _).symm
  | cons e es ih => rw [List.foldl_cons, ih, value_add, sumValue, add_assoc]

theorem value_foldl_mul (es : List Formula) (acc : Formula) :
    (es.foldl mul acc).value I = acc.value I * productValue es I := by
  induction es generalizing acc with
  | nil => exact (mul_one _).symm
  | cons e es ih => rw [List.foldl_cons, ih, value_mul, productValue, mul_assoc]

/-- Terms that are changed and read otherwise, but keep their values, keep their
sum. -/
theorem sumValue_map {es : List Formula} (h : ∀ e ∈ es, (g e).value I = e.value J) :
    sumValue (es.map g) I = sumValue es J := by
  induction es with
  | nil => rfl
  | cons e es ih =>
      obtain ⟨he, hes⟩ := List.forall_mem_cons.mp h
      rw [List.map_cons, sumValue, sumValue, he, ih hes]

/-- Factors that are changed and read otherwise, but keep their values, keep
their product. -/
theorem productValue_map {es : List Formula} (h : ∀ e ∈ es, (g e).value I = e.value J) :
    productValue (es.map g) I = productValue es J := by
  induction es with
  | nil => rfl
  | cons e es ih =>
      obtain ⟨he, hes⟩ := List.forall_mem_cons.mp h
      rw [List.map_cons, productValue, productValue, he, ih hes]

/-! ## Substitution

By induction over `Admits`, three times: the result is expandable, its degree is
bounded, and it has the right value.  The first is needed for the other two,
because only then the places at which a quotient or power is rebuilt are
known. -/

/-- Substituting in a sum substitutes in its terms and adds them up. -/
theorem addSubstituted_eq_foldl (name : String) (v acc : Formula) (ts : List Formula) :
    addSubstituted name v acc ts = (ts.map (substitute name v)).foldl add acc := by
  induction ts generalizing acc with
  | nil => rfl
  | cons t ts ih => rw [addSubstituted, ih, List.map_cons, List.foldl_cons]

theorem mulSubstituted_eq_foldl (name : String) (v acc : Formula) (fs : List Formula) :
    mulSubstituted name v acc fs = (fs.map (substitute name v)).foldl mul acc := by
  induction fs generalizing acc with
  | nil => rfl
  | cons f fs ih => rw [mulSubstituted, ih, List.map_cons, List.foldl_cons]

/-- The expandable formulas in which `v` can be put for a variable. -/
inductive Admits (name : String) (v : Formula) : Formula → Prop
  | num (q : ℚ) : Admits name v (.num (.exact q))
  | var (w : String) : Admits name v (.var w)
  | plus {ts : List Formula} (hts : ∀ e ∈ ts, Admits name v e) : Admits name v (.plus ts)
  | times {fs : List Formula} (hfs : ∀ e ∈ fs, Admits name v e) : Admits name v (.times fs)
  | minus {a : Formula} (ha : Admits name v a) : Admits name v (.minus a)
  | quotient {a : Formula} {q : ℚ} (ha : Admits name v a) (hq : q ≠ 0)
      (hnum : Scalar.fits q.num = true) (hden : Scalar.fits q.den = true)
      (hfold : (substitute name v a).div (.num (.exact q)) ≠ .num .overflow) :
      Admits name v (.over a (.num (.exact q)))
  | raised {a : Formula} {k : ℕ} (ha : Admits name v a) (hk : k ≤ 64) :
      Admits name v (.raised a (.num (.exact k)))
  | power {w : String} (hname : IsName w.toList) (hw : w ≠ name) (k : ℕ) :
      Admits name v (.raised (.var w) (.num (.exact k)))

namespace Admits

variable {name : String} {v e : Formula}

theorem substitute_var_of_ne {w : String} (hw : w ≠ name) : substitute name v (.var w) = .var w :=
  if_neg (by simpa using hw)

/-- **An expandable formula stays one.** -/
theorem expandable (he : Admits name v e) (hv : v.Expandable) :
    (substitute name v e).Expandable := by
  induction he with
  | num q => exact .num q
  | var w =>
      rw [substitute]
      split
      · exact hv
      · exact .var w
  | plus _ ih =>
      rw [substitute, addSubstituted_eq_foldl]
      exact List.foldlRecOn _ _ (.num 0) fun acc hacc e he => by
        obtain ⟨t, ht, rfl⟩ := List.mem_map.mp he
        exact hacc.add (ih t ht)
  | times _ ih =>
      rw [substitute, mulSubstituted_eq_foldl]
      exact List.foldlRecOn _ _ (.num 1) fun acc hacc e he => by
        obtain ⟨f, hf, rfl⟩ := List.mem_map.mp he
        exact hacc.mul (ih f hf)
  | minus _ ih => exact ih.neg
  | quotient _ hq hnum hden hfold ih => exact ih.div hq hnum hden hfold
  | raised _ hk ih => exact ih.pow (.raised ih hk)
  | power hname hw k =>
      rw [substitute, substitute_var_of_ne hw]
      exact Expandable.pow (.var _) (.power hname k)

/-- A variable that something of at most its degree is put for leaves the degree
as it is. -/
theorem degree_le (he : Admits name v e) (hv : v.degree ≤ 1) :
    (substitute name v e).degree ≤ e.degree := by
  induction he with
  | num q => exact le_rfl
  | var w =>
      rw [substitute]
      split
      · exact hv
      · exact le_rfl
  | @plus ts _ ih =>
      rw [substitute, addSubstituted_eq_foldl]
      refine List.foldlRecOn (motive := fun acc : Formula => acc.degree ≤ (Formula.plus ts).degree)
        _ _ (Nat.zero_le _) fun acc hacc e he => ?_
      obtain ⟨t, ht, rfl⟩ := List.mem_map.mp he
      exact degree_add_le hacc ((ih t ht).trans (degree_le_greatestDegree ht))
  | @times fs _ ih =>
      rw [substitute, mulSubstituted_eq_foldl]
      -- the degree so far and that of the factors that remain make up that of
      -- the product
      have hloop : ∀ (acc : Formula) (gs : List Formula),
          (∀ g ∈ gs, (substitute name v g).degree ≤ g.degree) →
          ((gs.map (substitute name v)).foldl mul acc).degree ≤ acc.degree + totalDegree gs := by
        intro acc gs hgs
        induction gs generalizing acc with
        | nil => exact le_rfl
        | cons g gs ih =>
            obtain ⟨hg, hgs⟩ := List.forall_mem_cons.mp hgs
            have hstep := degree_mul_le acc (substitute name v g)
            have hrest := ih (acc.mul (substitute name v g)) hgs
            rw [List.map_cons, List.foldl_cons, totalDegree]
            omega
      have hall := hloop one fs ih
      rw [one, degree_num, Nat.zero_add] at hall
      exact hall
  | minus _ ih => exact (degree_neg_le _).trans ih
  | quotient _ _ _ _ _ ih => exact (degree_div_le _ _).trans ih
  | raised _ _ ih =>
      rw [degree_raised]
      exact (degree_pow_le _ _).trans (Nat.mul_le_mul_left _ ih)
  | power _ hw k =>
      rw [degree_raised, substitute, substitute_var_of_ne hw]
      exact degree_pow_le _ k

/-- **Substitution.**  The result has the value of the formula with the variable
set to the value of what was put in its place. -/
theorem value_substitute (he : Admits name v e) {I : Reading} (hI : I.ReadsPowers) :
    (substitute name v e).value I = e.value (I.set name (v.value I)) := by
  induction he with
  | num q => rfl
  | var w =>
      rw [substitute]
      split
      · next hw =>
        rw [beq_iff_eq.mp hw, value, Reading.set_var, Function.update_self]
      · next hw =>
        rw [value, value, Reading.set_var, Function.update_of_ne (by simpa using hw)]
  | plus _ ih =>
      rw [substitute, addSubstituted_eq_foldl, value_foldl_add, sumValue_map ih]
      exact zero_add _
  | times _ ih =>
      rw [substitute, mulSubstituted_eq_foldl, value_foldl_mul, productValue_map ih]
      exact one_mul _
  | minus _ ih =>
      rw [substitute, value_neg, ih]
      rfl
  | quotient _ _ _ _ hfold ih =>
      rw [substitute, substitute, value_div _ _ _ hfold, ih]
      rfl
  | raised _ _ ih =>
      rw [substitute, substitute, value_pow hI, ih]
      exact (hI _ _).symm
  | power _ hw k =>
      rw [substitute, substitute_var_of_ne hw, substitute, value_pow hI]
      exact (congrArg (· ^ k) (Function.update_of_ne hw _ _).symm).trans (hI _ k).symm

/-- A variable that does not occur may have any value. -/
theorem value_set (he : Admits name v e) {w : String} (hw : w ∉ e.varsOutside []) (I : Reading)
    (x : ℚ) : e.value (I.set w x) = e.value I := by
  -- a variable that is free nowhere in a list is so in each formula of it
  have hparts : ∀ es : List Formula, w ∉ listVarsOutside [] es →
      ∀ e ∈ es, w ∉ e.varsOutside [] := by
    intro es
    induction es with
    | nil => simp
    | cons e es ih =>
        intro hw
        rw [listVarsOutside, List.mem_append, not_or] at hw
        exact List.forall_mem_cons.mpr ⟨hw.1, ih hw.2⟩
  induction he with
  | num q => exact I.scalar_set w x _
  | var u =>
      have hne : u ≠ w := fun h => hw (by simp [varsOutside, h])
      rw [value, value, Reading.set_var, Function.update_of_ne hne]
  | @plus ts _ ih =>
      have hvalues := sumValue_map (g := id) fun e he => ih e he (hparts ts hw e he)
      rwa [List.map_id] at hvalues
  | @times fs _ ih =>
      have hvalues := productValue_map (g := id) fun e he => ih e he (hparts fs hw e he)
      rwa [List.map_id] at hvalues
  | minus _ ih => rw [value, value, ih hw]
  | quotient _ _ _ _ _ ih =>
      rw [varsOutside, List.mem_append, not_or] at hw
      rw [value, value, ih hw.1]
      rfl
  | raised _ _ ih =>
      rw [varsOutside, List.mem_append, not_or] at hw
      rw [value, value, ih hw.1]
      rfl
  | @power u _ _ k =>
      have hne : u ≠ w := fun h => hw (by simp [varsOutside, h])
      rw [value, value, value, value, Reading.set_var, Function.update_of_ne hne]
      rfl

end Admits

end CostAnalysis.Formula
