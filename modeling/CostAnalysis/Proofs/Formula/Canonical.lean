import CostAnalysis.Algebra.Formula.Reader
import CostAnalysis.Proofs.Formula.Operands
import CostAnalysis.Proofs.Scalar

/-!
# Canonical formulas

A formula is seldom built by its raw constructors.  It is generated from
numbers, names and opaque fragments by `add`, `mul`, `div`, ..., which fold
constants and flatten nested sums, and the trees that come out have a shape that
the text format relies on: `Canonical`.

* No term of a sum is a sum, and only the last term may be a number, which is
  not zero.
* No factor of a product is a product, and only the first may be a number,
  neither zero nor one.
* Every other node is what its own constructor gives: `a / b` stands for two
  formulas whose quotient is not folded, `min a b` for two whose minimum is
  neither of them, and so on.

The main statement is `Generated.canonical`.  Its one condition is that
constants were really folded: a constant that cannot be combined with the others
without leaving the range of its words would be kept beside them.
-/

namespace CostAnalysis.Formula

open Reader

/-! ## Leaves -/

/-- The form of a name: a letter or underscore, then letters, numerals,
underscores and points. -/
def IsName (cs : List Char) : Prop :=
  ∃ c rest, cs = c :: rest ∧ isNameStart c = true ∧ rest.all isNamePart = true

/-- The form of an opaque fragment: no blanks at its ends, and no parenthesis
that is closed before it is opened or left open at the end. -/
structure IsFragment (cs : List Char) : Prop where
  trimmed : Text.trim cs = cs
  opened : ∀ start, start <+: cs → start.count ')' ≤ start.count '('
  closed : cs.count ')' = cs.count '('

/-! ## Generated formulas -/

/-- The numbers among some operands can be combined one after the other. -/
def Folds (combine : Scalar → Scalar → Option Scalar) (constant : Scalar) (es : List Formula) :
    Prop :=
  ((es.filterMap asNum?).foldlM combine constant).isSome = true

instance (combine : Scalar → Scalar → Option Scalar) (constant : Scalar) (es : List Formula) :
    Decidable (Folds combine constant es) :=
  inferInstanceAs (Decidable (_ = true))

/-- The formulas that the constructors generate from numbers, names and
fragments, as long as no folded constant leaves the range of its words. -/
inductive Generated : Formula → Prop
  | num {v : Scalar} (hv : v.Fits) : Generated (.num v)
  | var {name : String} (hname : IsName name.toList) : Generated (.var name)
  | unknown {t : String} (ht : IsFragment t.toList) : Generated (.unknown t)
  | add {a b : Formula} (ha : Generated a) (hb : Generated b)
      (hfold : Folds Scalar.add? 0 (a.addends ++ b.addends)) : Generated (a.add b)
  | sub {a b : Formula} (ha : Generated a) (hb : Generated b)
      (hfold : Folds Scalar.add? 0 (a.addends ++ b.neg.addends)) : Generated (a.sub b)
  | neg {a : Formula} (ha : Generated a) : Generated a.neg
  | mul {a b : Formula} (ha : Generated a) (hb : Generated b)
      (hfold : Folds Scalar.mul? 1 (a.multiplicands ++ b.multiplicands)) : Generated (a.mul b)
  | div {a b : Formula} (ha : Generated a) (hb : Generated b)
      (hfold : a.div b ≠ .num .overflow) : Generated (a.div b)
  | pow {a b : Formula} (ha : Generated a) (hb : Generated b) : Generated (a.pow b)
  | log {a : Formula} (ha : Generated a) : Generated a.log
  | min {a b : Formula} (ha : Generated a) (hb : Generated b) : Generated (a.min b)
  | max {a b : Formula} (ha : Generated a) (hb : Generated b) : Generated (a.max b)
  | sum {body start stop : Formula} {index : String} (hbody : Generated body)
      (hindex : IsName index.toList) (hstart : Generated start) (hstop : Generated stop) :
      Generated (body.sum index start stop)

/-! ## Canonical formulas

The constructor of a node is not always what builds it: `a.div b` may be a
quotient, a number or `a` itself.  So a canonical quotient is one that `a.div b`
really is, and the equation says so. -/

/-- A formula that is no sum and no number. -/
def IsTerm (e : Formula) : Prop :=
  e.addends = [e] ∧ e.asNum? = none

/-- A formula that is no product and no number. -/
def IsFactor (e : Formula) : Prop :=
  e.multiplicands = [e] ∧ e.asNum? = none

/-- The formulas that are built from their parts without any further
simplification. -/
inductive Canonical : Formula → Prop
  | num {v : Scalar} (hv : v.Fits) : Canonical (.num v)
  | var {name : String} (hname : IsName name.toList) : Canonical (.var name)
  | unknown {t : String} (ht : IsFragment t.toList) : Canonical (.unknown t)
  | plus {init : List Formula} {last : Formula} (hne : init ≠ [])
      (hinit : ∀ e ∈ init, Canonical e) (hlast : Canonical last) (hterms : ∀ e ∈ init, IsTerm e)
      (hend : last.addends = [last] ∧ last.isZero = false) : Canonical (.plus (init ++ [last]))
  | times {first : Formula} {rest : List Formula} (hne : rest ≠ []) (hfirst : Canonical first)
      (hrest : ∀ e ∈ rest, Canonical e)
      (hhead : first.multiplicands = [first] ∧ first.isZero = false ∧ first.isOne = false)
      (hfactors : ∀ e ∈ rest, IsFactor e) : Canonical (.times (first :: rest))
  | minus {a : Formula} (ha : Canonical a) (hneg : a.neg = .minus a) : Canonical (.minus a)
  | quotient {a b : Formula} (ha : Canonical a) (hb : Canonical b) (hdiv : a.div b = .over a b) :
      Canonical (.over a b)
  | raised {a b : Formula} (ha : Canonical a) (hb : Canonical b) (hpow : a.pow b = .raised a b) :
      Canonical (.raised a b)
  | logOf {a : Formula} (ha : Canonical a) : Canonical (.logOf a)
  | minOf {a b : Formula} (ha : Canonical a) (hb : Canonical b) (hmin : a.min b = .minOf a b) :
      Canonical (.minOf a b)
  | maxOf {a b : Formula} (ha : Canonical a) (hb : Canonical b) (hmax : a.max b = .maxOf a b) :
      Canonical (.maxOf a b)
  | sumOver {body start stop : Formula} {index : String} (hbody : Canonical body)
      (hindex : IsName index.toList) (hstart : Canonical start) (hstop : Canonical stop)
      (hsum : body.sum index start stop = .sumOver body index start stop) :
      Canonical (.sumOver body index start stop)

namespace Canonical

theorem zero : Canonical Formula.zero := .num Scalar.zero_fits

theorem one : Canonical Formula.one := .num Scalar.one_fits

/-- The only canonical formulas that plainly are numbers are the numbers. -/
theorem eq_num {e : Formula} {v : Scalar} (he : Canonical e) (hv : e.asNum? = some v) :
    e = .num v ∧ v.Fits := by
  cases he with
  | num hfits =>
      cases hv
      exact ⟨rfl, hfits⟩
  | _ => cases hv

/-- The terms of a canonical formula are canonical, and none is a sum. -/
theorem of_mem_addends {a e : Formula} (ha : Canonical a) (he : e ∈ a.addends) :
    Canonical e ∧ e.addends = [e] := by
  cases ha with
  | plus hne hinit hlast hterms hend =>
      rcases List.mem_append.mp he with hmem | hmem
      · exact ⟨hinit e hmem, (hterms e hmem).1⟩
      · cases List.mem_singleton.mp hmem
        exact ⟨hlast, hend.1⟩
  | _ =>
      cases List.mem_singleton.mp he
      exact ⟨by constructor <;> assumption, rfl⟩

/-- The factors of a canonical formula are canonical, and none is a product. -/
theorem of_mem_multiplicands {a e : Formula} (ha : Canonical a) (he : e ∈ a.multiplicands) :
    Canonical e ∧ e.multiplicands = [e] := by
  cases ha with
  | times hne hfirst hrest hhead hfactors =>
      rcases List.mem_cons.mp he with rfl | hmem
      · exact ⟨hfirst, hhead.1⟩
      · exact ⟨hrest e hmem, (hfactors e hmem).1⟩
  | _ =>
      cases List.mem_singleton.mp he
      exact ⟨by constructor <;> assumption, rfl⟩

end Canonical

/-! ## Sums and products

Two sums are added by putting their terms together and combining the numbers
among them, of which each side has one at most.  The number that results goes to
the end, and in a product to the front.
-/

/-- A fold of numbers whose parts fit gives one. -/
theorem fits_foldlM {combine : Scalar → Scalar → Option Scalar} {vs : List Scalar}
    {constant total : Scalar} (hstep : ∀ {x y s}, combine x y = some s → s.Fits)
    (hconstant : constant.Fits) (h : vs.foldlM combine constant = some total) : total.Fits := by
  induction vs generalizing constant with
  | nil =>
      cases h
      exact hconstant
  | cons v vs ih =>
      rw [List.foldlM_cons] at h
      obtain ⟨folded, hfolded, h⟩ := Option.bind_eq_some_iff.mp h
      exact ih (hstep hfolded) h

namespace Canonical

/-- Terms with a number at their end, if any, have a canonical sum. -/
theorem sumOf {init : List Formula} {last : Formula} (hinit : ∀ e ∈ init, Canonical e)
    (hlast : Canonical last) (hterms : ∀ e ∈ init, IsTerm e)
    (hend : last.addends = [last] ∧ last.isZero = false) :
    Canonical (Formula.sumOf (init ++ [last])) := by
  cases init with
  | nil => exact hlast
  | cons e es =>
      rw [sumOf_of_two_le (by simp)]
      exact .plus (by simp) hinit hlast hterms hend

/-- A factor other than zero and one before others has a canonical product. -/
theorem productOf {first : Formula} {rest : List Formula} (hfirst : Canonical first)
    (hrest : ∀ e ∈ rest, Canonical e)
    (hhead : first.multiplicands = [first] ∧ first.isZero = false ∧ first.isOne = false)
    (hfactors : ∀ e ∈ rest, IsFactor e) : Canonical (Formula.productOf (first :: rest)) := by
  cases rest with
  | nil => exact hfirst
  | cons e es => exact .times (by simp) hfirst hrest hhead hfactors

variable {a b : Formula}

/-- **Sums are canonical**: the terms of both sides are no sums, and the numbers
are folded into one at the end. -/
theorem add (ha : Canonical a) (hb : Canonical b)
    (hfold : Folds Scalar.add? 0 (a.addends ++ b.addends)) : Canonical (a.add b) := by
  obtain ⟨total, htotal⟩ := Option.isSome_iff_exists.mp hfold
  have hfits : total.Fits := fits_foldlM Scalar.Fits.of_add? Scalar.zero_fits htotal
  have hkept : ∀ e ∈ (a.addends ++ b.addends).filter fun e => e.asNum?.isNone,
      Canonical e ∧ IsTerm e := by
    intro e he
    obtain ⟨hmem, hnum⟩ := List.mem_filter.mp he
    rcases List.mem_append.mp hmem with hmem | hmem
    · obtain ⟨hcanonical, haddends⟩ := ha.of_mem_addends hmem
      exact ⟨hcanonical, haddends, Option.isNone_iff_eq_none.mp hnum⟩
    · obtain ⟨hcanonical, haddends⟩ := hb.of_mem_addends hmem
      exact ⟨hcanonical, haddends, Option.isNone_iff_eq_none.mp hnum⟩
  rw [add_eq_sumOf (absorb_eq htotal)]
  -- from here on only what kind of terms were kept matters, not where they come
  -- from
  generalize (a.addends ++ b.addends).filter (fun e => e.asNum?.isNone) = kept at hkept
  split
  · rcases List.eq_nil_or_concat' kept with rfl | ⟨init, last, rfl⟩
    · exact zero
    · have hlast := hkept last (by simp)
      refine sumOf (fun e he => (hkept e (by simp [he])).1) hlast.1
        (fun e he => (hkept e (by simp [he])).2) ⟨hlast.2.1, ?_⟩
      simp [isZero, hlast.2.2]
  · next hzero =>
    exact sumOf (fun e he => (hkept e he).1) (.num hfits) (fun e he => (hkept e he).2)
      ⟨rfl, by simpa [isZero, asNum?] using hzero⟩

/-- **Products are canonical**: the same with factors and the number in
front. -/
theorem mul (ha : Canonical a) (hb : Canonical b)
    (hfold : Folds Scalar.mul? 1 (a.multiplicands ++ b.multiplicands)) :
    Canonical (a.mul b) := by
  obtain ⟨total, htotal⟩ := Option.isSome_iff_exists.mp hfold
  have hfits : total.Fits := fits_foldlM Scalar.Fits.of_mul? Scalar.one_fits htotal
  have hkept : ∀ e ∈ (a.multiplicands ++ b.multiplicands).filter fun e => e.asNum?.isNone,
      Canonical e ∧ IsFactor e := by
    intro e he
    obtain ⟨hmem, hnum⟩ := List.mem_filter.mp he
    rcases List.mem_append.mp hmem with hmem | hmem
    · obtain ⟨hcanonical, hfactors⟩ := ha.of_mem_multiplicands hmem
      exact ⟨hcanonical, hfactors, Option.isNone_iff_eq_none.mp hnum⟩
    · obtain ⟨hcanonical, hfactors⟩ := hb.of_mem_multiplicands hmem
      exact ⟨hcanonical, hfactors, Option.isNone_iff_eq_none.mp hnum⟩
  rw [mul_eq_productOf (absorb_eq htotal)]
  -- from here on only what kind of factors were kept matters, not where they
  -- come from
  generalize (a.multiplicands ++ b.multiplicands).filter (fun e => e.asNum?.isNone) = kept at hkept
  split
  · exact zero
  · next hzero =>
    cases kept with
    | nil => simpa [Formula.productOf] using Canonical.num hfits
    | cons f fs =>
        have hf := hkept f (by simp)
        split
        · next hone =>
          refine productOf (.num hfits) (fun e he => (hkept e he).1) ⟨rfl, ?_, ?_⟩
            fun e he => (hkept e he).2
          · simpa [isZero, asNum?] using hzero
          · simpa [isOne, asNum?] using hone
        · refine productOf hf.1 (fun e he => (hkept e (by simp [he])).1) ⟨hf.2.1, ?_, ?_⟩
            fun e he => (hkept e (by simp [he])).2
          · simp [isZero, hf.2.2]
          · simp [isOne, hf.2.2]

/-- Opposites are numbers, products with another number, or have a sign. -/
theorem neg (ha : Canonical a) : Canonical a.neg := by
  cases ha with
  | num hv =>
      rw [Formula.neg, hv.neg.isOverflow]
      exact .num hv.neg
  | minus ha hneg => exact ha
  | _ => exact .minus (by constructor <;> assumption) rfl

/-- Quotients are folded or not, and only those by zero or beyond the range need
the condition. -/
theorem div (ha : Canonical a) (hb : Canonical b) (hfold : a.div b ≠ .num .overflow) :
    Canonical (a.div b) := by
  -- a quotient that stays as it is was not simplified, which is what makes it
  -- canonical
  by_cases hraw : a.div b = .over a b
  · rw [hraw]
    exact .quotient ha hb hraw
  rw [Formula.div] at hraw hfold ⊢
  split
  · exact ha
  · next hone =>
    rw [if_neg hone] at hraw hfold
    split
    · next x y hx hy =>
      rw [hx, hy] at hraw hfold
      split
      · next q hq =>
        refine .num (Scalar.Fits.of_div? hq fun hoverflow => hfold ?_)
        simp [hq, hoverflow]
      · next hnone => simp [hnone] at hraw
    · next hboth =>
      split at hraw
      · next x y hx hy => exact absurd hy (hboth x y hx)
      · exact absurd rfl hraw

/-- Powers are folded for the exponents zero and one. -/
theorem pow (ha : Canonical a) (hb : Canonical b) : Canonical (a.pow b) := by
  by_cases hraw : a.pow b = .raised a b
  · rw [hraw]
    exact .raised ha hb hraw
  rw [Formula.pow] at hraw ⊢
  split at hraw
  · next hone =>
    rw [if_pos hone]
    exact ha
  · next hone =>
    split at hraw
    · next hzero =>
      rw [if_neg hone, if_pos hzero]
      exact one
    · exact absurd rfl hraw

/-- A minimum is zero, one of its operands, or stays. -/
theorem min (ha : Canonical a) (hb : Canonical b) : Canonical (a.min b) := by
  -- either nothing is simplified, or the minimum is one of the two or a number
  by_cases hraw : a.min b = .minOf a b
  · rw [hraw]
    exact .minOf ha hb hraw
  rw [Formula.min] at hraw ⊢
  split
  · exact zero
  · split
    · exact ha
    · next hzero hsame =>
      rw [if_neg hzero, if_neg hsame] at hraw
      split
      · next x y hx hy =>
        rcases Scalar.least_eq x y with h | h <;> rw [h]
        · exact .num (ha.eq_num hx).2
        · exact .num (hb.eq_num hy).2
      · next hboth =>
        split at hraw
        · next x y hx hy => exact absurd hy (hboth x y hx)
        · exact absurd rfl hraw

/-- A maximum is one of its operands or stays. -/
theorem max (ha : Canonical a) (hb : Canonical b) : Canonical (a.max b) := by
  by_cases hraw : a.max b = .maxOf a b
  · rw [hraw]
    exact .maxOf ha hb hraw
  rw [Formula.max] at hraw ⊢
  split
  · exact hb
  · split
    · exact ha
    · next hzero hsame =>
      rw [if_neg hzero, if_neg hsame] at hraw
      split
      · next x y hx hy =>
        rcases Scalar.greatest_eq x y with h | h <;> rw [h]
        · exact .num (ha.eq_num hx).2
        · exact .num (hb.eq_num hy).2
      · next hboth =>
        split at hraw
        · next x y hx hy => exact absurd hy (hboth x y hx)
        · exact absurd rfl hraw

/-- Summations are kept, or plainly zero. -/
theorem sum {body start stop : Formula} {index : String} (hbody : Canonical body)
    (hindex : IsName index.toList) (hstart : Canonical start) (hstop : Canonical stop) :
    Canonical (body.sum index start stop) := by
  by_cases hzero : body.isZero = true
  · rw [Formula.sum, if_pos hzero]
    exact zero
  · have hraw : body.sum index start stop = .sumOver body index start stop := if_neg hzero
    rw [hraw]
    exact .sumOver hbody hindex hstart hstop hraw

end Canonical

/-! ## Adding and multiplying at the end

A reader adds one term after the other, a printer writes all of them.  The
equations here say that adding a term to a sum, or multiplying a product by a
factor, only makes the list longer. -/

/-- The terms of a sum are found again in it. -/
theorem addends_sumOf {ts : List Formula} (hne : ts ≠ []) (h : ∀ e ∈ ts, IsTerm e) :
    (sumOf ts).addends = ts := by
  match ts with
  | [t] => exact (h t (by simp)).1
  | _ :: _ :: _ => rfl

/-- The sum of canonical terms grows term by term. -/
theorem add_sumOf {init : List Formula} {last : Formula} (hne : init ≠ [])
    (hterms : ∀ e ∈ init, IsTerm e) (hlast : Canonical last)
    (hend : last.addends = [last] ∧ last.isZero = false) :
    (sumOf init).add last = sumOf (init ++ [last]) := by
  have hoperands : (sumOf init).addends ++ last.addends = init ++ [last] := by
    rw [addends_sumOf hne hterms, hend.1]
  cases hnum : last.asNum? with
  | none =>
      have hnone : ∀ e ∈ init ++ [last], e.asNum? = none := by
        intro e he
        rcases List.mem_append.mp he with hmem | hmem
        · exact (hterms e hmem).2
        · rw [List.mem_singleton.mp hmem]
          exact hnum
      -- there is no number, so nothing is folded
      rw [add_eq_sumOf (by rw [hoperands, absorb_of_asNum?_eq_none hnone])]
      rfl
  | some v =>
      obtain ⟨rfl, hv⟩ := hlast.eq_num hnum
      have hzero : v.isZero = false := by simpa [isZero, asNum?] using hend.2
      -- the only number is the last term, and it is folded into the zero from
      -- which folding starts
      rw [add_eq_sumOf (by
        rw [hoperands, absorb_append_num (fun e he => (hterms e he).2) (Scalar.zero_add? hv)])]
      simp [hzero]

theorem multiplicands_productOf {first : Formula} {rest : List Formula}
    (h : first.multiplicands = [first]) :
    (productOf (first :: rest)).multiplicands = first :: rest := by
  cases rest with
  | nil => exact h
  | cons _ _ => rfl

/-- The product of canonical factors grows factor by factor. -/
theorem mul_productOf {first f : Formula} {rest : List Formula} (hfirst : Canonical first)
    (hhead : first.multiplicands = [first] ∧ first.isZero = false ∧ first.isOne = false)
    (hrest : ∀ e ∈ rest, IsFactor e) (hf : IsFactor f) :
    (productOf (first :: rest)).mul f = productOf (first :: (rest ++ [f])) := by
  have hoperands :
      (productOf (first :: rest)).multiplicands ++ f.multiplicands = first :: (rest ++ [f]) := by
    rw [multiplicands_productOf hhead.1, hf.1, List.cons_append]
  have hnone : ∀ e ∈ rest ++ [f], e.asNum? = none := by
    intro e he
    rcases List.mem_append.mp he with hmem | hmem
    · exact (hrest e hmem).2
    · rw [List.mem_singleton.mp hmem]
      exact hf.2
  -- a number stands in front, so that only the first factor can be one
  cases hnum : first.asNum? with
  | none =>
      have hall : ∀ e ∈ first :: (rest ++ [f]), e.asNum? = none := by
        intro e he
        rcases List.mem_cons.mp he with rfl | hmem
        · exact hnum
        · exact hnone e hmem
      rw [mul_eq_productOf (by rw [hoperands, absorb_of_asNum?_eq_none hall])]
      rfl
  | some v =>
      obtain ⟨rfl, hv⟩ := hfirst.eq_num hnum
      have hzero : v.isZero = false := by simpa [isZero, asNum?] using hhead.2.1
      have hone : v.isOne = false := by simpa [isOne, asNum?] using hhead.2.2
      have habsorb : absorb Scalar.mul? 1 (Formula.num v :: (rest ++ [f])) = (v, rest ++ [f]) := by
        simp [absorb, asNum?, Scalar.one_mul? hv, absorb_of_asNum?_eq_none hnone]
      rw [mul_eq_productOf (by rw [hoperands, habsorb])]
      simp [hzero, hone]

/-! ## Generation -/

/-- **What the constructors generate is canonical.** -/
theorem Generated.canonical {e : Formula} (he : Generated e) : Canonical e := by
  induction he with
  | num hv => exact .num hv
  | var hname => exact .var hname
  | unknown ht => exact .unknown ht
  | add _ _ hfold iha ihb => exact iha.add ihb hfold
  | sub _ _ hfold iha ihb => exact iha.add ihb.neg hfold
  | neg _ iha => exact iha.neg
  | mul _ _ hfold iha ihb => exact iha.mul ihb hfold
  | div _ _ hfold iha ihb => exact iha.div ihb hfold
  | pow _ _ iha ihb => exact iha.pow ihb
  | log _ iha => exact .logOf iha
  | min _ _ iha ihb => exact iha.min ihb
  | max _ _ iha ihb => exact iha.max ihb
  | sum _ hindex _ _ ihbody ihstart ihstop => exact ihbody.sum hindex ihstart ihstop

end CostAnalysis.Formula
