import CostAnalysis.Algebra.Formula.Basic
import CostAnalysis.Proofs.Poly.Sum
import CostAnalysis.Proofs.Scalar

/-!
# The operands of sums and products

`Formula.add` and `Formula.mul` take the operands of both sides, fold the
numbers among them and put what is left together again.  Here are the two halves
of that: `sumOf` and `productOf` put operands together, and `absorb_eq` says
what folding leaves.  What holds of the operands and of every number holds of
those of the result (`exists_add_eq`, `exists_mul_eq`).

A property that sums, products and opposites have just if their operands have it
is `Operandwise`.  Sums and products that are put together have it if both sides
have (`Sumwise.add`, `Operandwise.mul`), and the other way round nothing is lost
but what a zero makes vanish (`Sumwise.of_add`, `Operandwise.of_mul`).  Whether
the mark of an overflow is in a formula (`hasOverflow`) is such a property.
-/

namespace CostAnalysis.Formula

/-- The sum of some terms. -/
def sumOf : List Formula → Formula
  | [] => zero
  | [t] => t
  | ts => .plus ts

/-- The product of some factors. -/
def productOf : List Formula → Formula
  | [f] => f
  | fs => .times fs

/-- Two terms or more make a sum. -/
theorem sumOf_of_two_le {ts : List Formula} (h : 2 ≤ ts.length) : sumOf ts = .plus ts := by
  match ts with
  | _ :: _ :: _ => rfl

theorem productOf_of_two_le {fs : List Formula} (h : 2 ≤ fs.length) :
    productOf fs = .times fs := by
  match fs with
  | _ :: _ :: _ => rfl

/-- Where the numbers fold, folding separates them from the other operands. -/
theorem absorb_eq {combine : Scalar → Scalar → Option Scalar} {constant total : Scalar}
    {es : List Formula} (h : (es.filterMap asNum?).foldlM combine constant = some total) :
    absorb combine constant es = (total, es.filter fun e => e.asNum?.isNone) := by
  induction es generalizing constant with
  | nil =>
      cases h
      rfl
  | cons e es ih =>
      cases hnum : e.asNum? with
      | none =>
          rw [List.filterMap_cons_none hnum] at h
          simp [absorb, hnum, ih h]
      | some v =>
          rw [List.filterMap_cons_some hnum, List.foldlM_cons] at h
          obtain ⟨folded, hfolded, h⟩ := Option.bind_eq_some_iff.mp h
          simp [absorb, hnum, hfolded, ih h]

/-- Folding leaves some of the operands, in their order. -/
theorem sublist_of_absorb {combine : Scalar → Scalar → Option Scalar} {constant total : Scalar}
    {es kept : List Formula} (habsorb : absorb combine constant es = (total, kept)) :
    kept.Sublist es := by
  induction es generalizing constant kept with
  | nil =>
      cases habsorb
      exact List.Sublist.refl []
  | cons e es ih =>
      rw [absorb] at habsorb
      split at habsorb
      · exact (ih habsorb).cons e
      · cases habsorb
        exact (ih rfl).cons_cons e

/-- Folding leaves only operands that were there. -/
theorem mem_of_mem_absorb {combine : Scalar → Scalar → Option Scalar} {constant total : Scalar}
    {es kept : List Formula} {e : Formula} (habsorb : absorb combine constant es = (total, kept))
    (h : e ∈ kept) : e ∈ es :=
  (sublist_of_absorb habsorb).subset h

/-- An operand that cannot be folded is kept. -/
theorem mem_absorb {combine : Scalar → Scalar → Option Scalar} {constant total : Scalar}
    {es kept : List Formula} {e : Formula} (habsorb : absorb combine constant es = (total, kept))
    (he : e ∈ es) (hkeep : ∀ c, e.asNum?.bind (combine c) = none) : e ∈ kept := by
  induction es generalizing constant kept with
  | nil => cases he
  | cons d es ih =>
      rw [absorb] at habsorb
      split at habsorb
      · next folded hfolded =>
        rcases List.mem_cons.mp he with rfl | he
        · rw [hkeep] at hfolded
          cases hfolded
        · exact ih habsorb he
      · cases habsorb
        rcases List.mem_cons.mp he with rfl | he
        · exact List.mem_cons_self
        · exact List.mem_cons_of_mem _ (ih rfl he)

/-- A product is folded to zero only by a factor that is zero. -/
theorem isZero_of_absorb {constant total : Scalar} {es kept : List Formula}
    (habsorb : absorb Scalar.mul? constant es = (total, kept)) (htotal : total.isZero = true) :
    constant.isZero = true ∨ ∃ e ∈ es, e.isZero = true := by
  induction es generalizing constant kept with
  | nil =>
      cases habsorb
      exact Or.inl htotal
  | cons e es ih =>
      rw [absorb] at habsorb
      split at habsorb
      · next folded hfolded =>
        obtain ⟨v, hv, hmul⟩ := Option.bind_eq_some_iff.mp hfolded
        rcases ih habsorb with hzero | ⟨d, hd, hzero⟩
        · rcases Scalar.isZero_of_mul? hmul hzero with hzero | hzero
          · exact Or.inl hzero
          · exact Or.inr ⟨e, by simp, by simpa [isZero, hv] using hzero⟩
        · exact Or.inr ⟨d, by simp [hd], hzero⟩
      · cases habsorb
        rcases ih rfl with hzero | ⟨d, hd, hzero⟩
        · exact Or.inl hzero
        · exact Or.inr ⟨d, by simp [hd], hzero⟩

/-- What is plainly zero is a number. -/
theorem exists_of_isZero {e : Formula} (h : e.isZero = true) :
    ∃ v, e.asNum? = some v ∧ v.isZero = true :=
  (Option.any_eq_true _ _).mp h

/-- What is plainly one is a number. -/
theorem exists_of_isOne {e : Formula} (h : e.isOne = true) :
    ∃ v, e.asNum? = some v ∧ v.isOne = true :=
  (Option.any_eq_true _ _).mp h

/-- Zero is always folded into a product. -/
theorem isZero_of_mem_absorb {q : ℚ} {total : Scalar} {es kept : List Formula}
    (habsorb : absorb Scalar.mul? (.exact q) es = (total, kept)) :
    ∀ f ∈ kept, f.isZero = false := by
  induction es generalizing q kept with
  | nil =>
      cases habsorb
      simp
  | cons e es ih =>
      rw [absorb] at habsorb
      split at habsorb
      · next folded hfolded =>
        obtain ⟨v, hv, hmul⟩ := Option.bind_eq_some_iff.mp hfolded
        obtain ⟨r, rfl, -, -⟩ := Scalar.Fits.of_mul? hmul
        exact ih habsorb
      · next hkept =>
        cases habsorb
        intro f hf
        rcases List.mem_cons.mp hf with rfl | hf
        · -- a zero here would have been folded
          by_contra hzero
          rw [Bool.not_eq_false] at hzero
          obtain ⟨v, hv, hzero⟩ := exists_of_isZero hzero
          rw [hv] at hkept
          cases v with
          | overflow => cases hzero
          | exact r =>
              have hr : r = 0 := (Scalar.isZero_exact r).mp hzero
              rw [hr, Option.bind_some, Scalar.mul?_zero] at hkept
              cases hkept
        · exact ih rfl f hf

/-- Folding gives the constant that it starts from or one that was combined. -/
theorem of_absorb {P : Scalar → Prop} {combine : Scalar → Scalar → Option Scalar}
    {constant total : Scalar} {es kept : List Formula}
    (habsorb : absorb combine constant es = (total, kept))
    (hcombine : ∀ {x y s}, combine x y = some s → P s) (hconstant : P constant) : P total := by
  have hfirst : ∀ constant : Scalar, P constant → P (absorb combine constant es).1 := by
    clear habsorb
    induction es with
    | nil => exact fun constant hconstant => hconstant
    | cons e es ih =>
        intro constant hconstant
        unfold absorb
        split
        · next folded hfolded =>
            obtain ⟨v, -, hfolded⟩ := Option.bind_eq_some_iff.mp hfolded
            exact ih _ (hcombine hfolded)
        · exact ih constant hconstant
  have h := hfirst constant hconstant
  rwa [habsorb] at h

/-- **Addition** folds the numbers of both sides and puts the terms together,
the number last. -/
theorem add_eq_sumOf {a b : Formula} {total : Scalar} {terms : List Formula}
    (h : absorb Scalar.add? 0 (a.addends ++ b.addends) = (total, terms)) :
    a.add b = sumOf (if total.isZero then terms else terms ++ [.num total]) := by
  rw [add, h]
  rfl

/-- **Multiplication** does the same with the number first, and is zero if that
is. -/
theorem mul_eq_productOf {a b : Formula} {total : Scalar} {factors : List Formula}
    (h : absorb Scalar.mul? 1 (a.multiplicands ++ b.multiplicands) = (total, factors)) :
    a.mul b = if total.isZero then zero
      else productOf (if !total.isOne || factors.isEmpty then .num total :: factors
        else factors) := by
  rw [mul, h]
  rfl

/-- **The terms of a sum** are terms of the operands, and maybe a number that is
no mark. -/
theorem exists_add_eq {P : Formula → Prop} {a b : Formula} (ha : ∀ t ∈ a.addends, P t)
    (hb : ∀ t ∈ b.addends, P t) (hnum : ∀ v : Scalar, v.isOverflow = false → P (.num v)) :
    ∃ ts, a.add b = sumOf ts ∧ ∀ t ∈ ts, P t := by
  obtain ⟨⟨total, kept⟩, habsorb⟩ : ∃ r, absorb Scalar.add? 0 (a.addends ++ b.addends) = r :=
    ⟨_, rfl⟩
  have htotal : total.isOverflow = false :=
    of_absorb (P := fun s => s.isOverflow = false) habsorb
      (fun h => (Scalar.Fits.of_add? h).isOverflow) rfl
  have hkept : ∀ e ∈ kept, P e := fun e he =>
    (List.mem_append.mp (mem_of_mem_absorb habsorb he)).elim (ha e) (hb e)
  refine ⟨_, add_eq_sumOf habsorb, ?_⟩
  split
  · exact hkept
  · exact List.forall_mem_append.mpr ⟨hkept, List.forall_mem_singleton.mpr (hnum total htotal)⟩

/-- **The factors of a product**, unless it is zero, are factors of the
operands, and maybe a number that is no mark. -/
theorem exists_mul_eq {P : Formula → Prop} {a b : Formula} (ha : ∀ f ∈ a.multiplicands, P f)
    (hb : ∀ f ∈ b.multiplicands, P f) (hnum : ∀ v : Scalar, v.isOverflow = false → P (.num v)) :
    a.mul b = zero ∨ ∃ fs, a.mul b = productOf fs ∧ ∀ f ∈ fs, P f := by
  obtain ⟨⟨total, kept⟩, habsorb⟩ :
      ∃ r, absorb Scalar.mul? 1 (a.multiplicands ++ b.multiplicands) = r := ⟨_, rfl⟩
  have htotal : total.isOverflow = false :=
    of_absorb (P := fun s => s.isOverflow = false) habsorb
      (fun h => (Scalar.Fits.of_mul? h).isOverflow) rfl
  have hkept : ∀ e ∈ kept, P e := fun e he =>
    (List.mem_append.mp (mem_of_mem_absorb habsorb he)).elim (ha e) (hb e)
  rw [mul_eq_productOf habsorb]
  split
  · exact .inl rfl
  · refine .inr ⟨_, rfl, ?_⟩
    split
    · exact List.forall_mem_cons.mpr ⟨hnum total htotal, hkept⟩
    · exact hkept

/-- Without a number among the operands nothing is folded. -/
theorem absorb_of_asNum?_eq_none {combine : Scalar → Scalar → Option Scalar} {constant : Scalar}
    {es : List Formula} (h : ∀ e ∈ es, e.asNum? = none) :
    absorb combine constant es = (constant, es) := by
  have hfold : (es.filterMap asNum?).foldlM combine constant = some constant := by
    rw [List.filterMap_eq_nil_iff.mpr h]
    rfl
  rw [absorb_eq hfold, List.filter_eq_self.mpr fun e he => by rw [h e he]; rfl]

/-- A number at the end of operands without one is folded. -/
theorem absorb_append_num {combine : Scalar → Scalar → Option Scalar} {constant v folded : Scalar}
    {es : List Formula} (h : ∀ e ∈ es, e.asNum? = none) (hv : combine constant v = some folded) :
    absorb combine constant (es ++ [.num v]) = (folded, es) := by
  have hfold : ((es ++ [Formula.num v]).filterMap asNum?).foldlM combine constant =
      some folded := by
    rw [List.filterMap_append, List.filterMap_eq_nil_iff.mpr h]
    simp [asNum?, hv]
  rw [absorb_eq hfold, List.filter_append, List.filter_eq_self.mpr fun e he => by rw [h e he]; rfl]
  simp [asNum?]

/-! ## Properties of operands

Numbers always have the property, and a sum or product has it just if its
operands do.  Flattening, folding and putting together then keep it in both
directions, but for what a zero makes vanish. -/

/-- An operand that is not kept was folded, and so is plainly a number. -/
theorem forall_of_absorb {P : Formula → Prop}
    (hnum : ∀ {e : Formula} {q : ℚ}, e.asNum? = some (.exact q) → P e)
    {combine : Scalar → Scalar → Option Scalar} (hcombine : ∀ c, combine c .overflow = none)
    {constant total : Scalar} {es kept : List Formula}
    (habsorb : absorb combine constant es = (total, kept)) (hkept : ∀ e ∈ kept, P e) :
    ∀ e ∈ es, P e := by
  intro e he
  by_cases hfold : ∃ q, e.asNum? = some (.exact q)
  · obtain ⟨q, hq⟩ := hfold
    exact hnum hq
  · refine hkept e (mem_absorb habsorb he fun c => ?_)
    cases hv : e.asNum? with
    | none => rfl
    | some v =>
        cases v with
        | exact q => exact absurd ⟨q, hv⟩ hfold
        | overflow => exact hcombine c

/-- A property that sums have just if their terms have it, and that every number
other than the mark has. -/
structure Sumwise (P : Formula → Prop) : Prop where
  plus {ts : List Formula} : P (.plus ts) ↔ ∀ t ∈ ts, P t
  num (q : ℚ) : P (.num (.exact q))

namespace Sumwise

variable {P : Formula → Prop} (h : Sumwise P) {a b : Formula}
include h

/-- Such a property holds of every number but the mark. -/
theorem of_isOverflow {v : Scalar} (hv : v.isOverflow = false) : P (.num v) := by
  cases v with
  | exact q => exact h.num q
  | overflow => cases hv

/-- Such a property holds of the addends just if it holds of the formula. -/
theorem addends_iff : (∀ t ∈ a.addends, P t) ↔ P a := by
  cases a with
  | plus ts => exact h.plus.symm
  | _ => exact List.forall_mem_singleton

theorem sumOf_iff {ts : List Formula} : P (sumOf ts) ↔ ∀ t ∈ ts, P t := by
  match ts with
  | [] => exact iff_of_true (h.num 0) nofun
  | [t] => exact List.forall_mem_singleton.symm
  | _ :: _ :: _ => exact h.plus

/-- Such a property is kept by addition. -/
theorem add (ha : P a) (hb : P b) : P (a.add b) := by
  obtain ⟨ts, heq, hts⟩ := exists_add_eq (h.addends_iff.mpr ha) (h.addends_iff.mpr hb)
    fun _ => h.of_isOverflow
  rw [heq]
  exact h.sumOf_iff.mpr hts

/-- Nothing is lost in a sum. -/
theorem of_add (hnum : ∀ {e : Formula} {q : ℚ}, e.asNum? = some (.exact q) → P e)
    (hab : P (a.add b)) : P a ∧ P b := by
  obtain ⟨⟨total, terms⟩, habsorb⟩ : ∃ r, absorb Scalar.add? 0 (a.addends ++ b.addends) = r :=
    ⟨_, rfl⟩
  rw [add_eq_sumOf habsorb, h.sumOf_iff] at hab
  have hterms : ∀ t ∈ terms, P t := fun t ht => hab t (by split <;> simp [ht])
  have hall := forall_of_absorb hnum Scalar.add?_overflow habsorb hterms
  rw [List.forall_mem_append, h.addends_iff, h.addends_iff] at hall
  exact hall

end Sumwise

/-- A property that sums, products and opposites have just if their operands
have it, and that every number other than the mark has. -/
structure Operandwise (P : Formula → Prop) : Prop extends Sumwise P where
  times {fs : List Formula} : P (.times fs) ↔ ∀ f ∈ fs, P f
  minus {a : Formula} : P (.minus a) ↔ P a

namespace Operandwise

variable {P : Formula → Prop} (h : Operandwise P) {a b : Formula}
include h

/-- Such a property holds of the factors just if it holds of the formula. -/
theorem multiplicands_iff : (∀ f ∈ a.multiplicands, P f) ↔ P a := by
  cases a with
  | times fs => exact h.times.symm
  | _ => exact List.forall_mem_singleton

theorem productOf_iff {fs : List Formula} : P (productOf fs) ↔ ∀ f ∈ fs, P f := by
  match fs with
  | [] => exact h.times
  | [f] => exact List.forall_mem_singleton.symm
  | _ :: _ :: _ => exact h.times

/-- Such a property is kept by multiplication. -/
theorem mul (ha : P a) (hb : P b) : P (a.mul b) := by
  rcases exists_mul_eq (h.multiplicands_iff.mpr ha) (h.multiplicands_iff.mpr hb)
    fun _ => h.of_isOverflow with heq | ⟨fs, heq, hfs⟩
  · rw [heq]
    exact h.num 0
  · rw [heq]
    exact h.productOf_iff.mpr hfs

theorem neg_iff : P a.neg ↔ P a := by
  cases a with
  | num v =>
      rw [neg]
      split
      · exact h.minus
      · next hopposite =>
          cases v with
          | exact q =>
              exact iff_of_true (h.of_isOverflow (Bool.not_eq_true _ ▸ hopposite)) (h.num q)
          | overflow => exact absurd rfl hopposite
  | minus a => exact h.minus.symm
  | _ => exact h.minus

/-- In a product something can only be lost if a factor is zero, and then the
product is. -/
theorem of_mul (hnum : ∀ {e : Formula} {q : ℚ}, e.asNum? = some (.exact q) → P e)
    (hab : P (a.mul b)) :
    (a.mul b = zero ∧ ∃ f ∈ a.multiplicands ++ b.multiplicands, f.isZero = true) ∨ P a ∧ P b := by
  obtain ⟨⟨total, factors⟩, habsorb⟩ :
      ∃ r, absorb Scalar.mul? 1 (a.multiplicands ++ b.multiplicands) = r := ⟨_, rfl⟩
  rw [mul_eq_productOf habsorb] at hab ⊢
  by_cases htotal : total.isZero = true
  · exact Or.inl ⟨if_pos htotal, (isZero_of_absorb habsorb htotal).resolve_left nofun⟩
  · rw [if_neg htotal, h.productOf_iff] at hab
    have hfactors : ∀ f ∈ factors, P f := fun f hf => hab f (by split <;> simp [hf])
    have hall := forall_of_absorb hnum Scalar.mul?_overflow habsorb hfactors
    rw [List.forall_mem_append, h.multiplicands_iff, h.multiplicands_iff] at hall
    exact Or.inr hall

end Operandwise

/-! ## Marks in formulas -/

mutual

/-- Whether some number in the formula is the mark of an overflow. -/
def hasOverflow : Formula → Bool
  | .num v => v.isOverflow
  | .var _ => false
  | .unknown _ => false
  | .plus ts => anyOverflow ts
  | .times fs => anyOverflow fs
  | .over a b => hasOverflow a || hasOverflow b
  | .raised a b => hasOverflow a || hasOverflow b
  | .minus a => hasOverflow a
  | .logOf a => hasOverflow a
  | .minOf a b => hasOverflow a || hasOverflow b
  | .maxOf a b => hasOverflow a || hasOverflow b
  | .sumOver body _ start stop => hasOverflow body || hasOverflow start || hasOverflow stop
  | .resolved p => p.hasOverflow
termination_by structural e => e

/-- Whether some number in a list of formulas is the mark of an overflow. -/
def anyOverflow : List Formula → Bool
  | [] => false
  | e :: es => hasOverflow e || anyOverflow es
termination_by structural es => es

end

/-- A list has no mark if no formula of it has one. -/
theorem anyOverflow_eq_false {es : List Formula} :
    anyOverflow es = false ↔ ∀ e ∈ es, e.hasOverflow = false := by
  induction es with
  | nil => simp [anyOverflow]
  | cons e es ih => simp [anyOverflow, ih]

/-- There is no mark in a formula if and only if there is none in its
operands. -/
theorem operandwise_hasOverflow : Operandwise fun e => e.hasOverflow = false where
  plus := anyOverflow_eq_false
  times := anyOverflow_eq_false
  minus := Iff.rfl
  num _ := rfl

/-- A number is not the mark. -/
theorem hasOverflow_of_asNum? {e : Formula} {q : ℚ} (h : e.asNum? = some (.exact q)) :
    e.hasOverflow = false := by
  cases e with
  | num v =>
      obtain rfl := Option.some.inj h
      rfl
  | resolved p => exact Poly.hasOverflow_of_asConstant? h
  | _ => cases h

end CostAnalysis.Formula
