import CostAnalysis.Algebra.Poly.Power
import CostAnalysis.Proofs.Assoc
import CostAnalysis.Proofs.Formula.Canonical
import CostAnalysis.Proofs.Poly.Order

/-!
# Elementary polynomials

The polynomials whose texts can be trusted: all their atoms are variables,
logarithms, square roots and exponentials of variables, or opaque fragments, and
none of their numbers is clamped.  The order of all atoms need not be
transitive, since coefficients inside of them are compared by rounded quotients.
Elementary atoms hold no such coefficients.  On them the order is that of their
keys (`Atom.linearOn_isElementary`), and so it is on the monomials over them.

What this is needed for is that sorted lists are decided by their entries.  A
monomial is the product of its factors however these are divided up
(`Monomial.Elementary.eq_mul`), it is decided by its exponents
(`Monomial.Elementary.ext`), and a polynomial is the sum of its terms in
whatever order they are added (`Poly.Elementary.foldl_addTerm`).
-/

namespace CostAnalysis

open Numeric

/-! ## Atoms

The order of atoms compares their kinds first and then what is inside.  For
elementary atoms that is a key made of a kind and a text, on which the order is
a linear one. -/

namespace Atom

/-- The atoms that hold at most one variable and no coefficient. -/
inductive IsElementary : Atom → Prop
  | var {v : String} (hv : Formula.IsName v.toList) : IsElementary (.var v)
  | log {v : String} (hv : Formula.IsName v.toList) : IsElementary (.log (Poly.var v))
  | exp {b : ℕ} {v : String} (hb : 1 < b) (hfits : Scalar.fits b = true)
      (hv : Formula.IsName v.toList) : IsElementary (.exp (.ofNat b) (Poly.var v))
  | sqrt {v : String} (hv : Formula.IsName v.toList) : IsElementary (.power (Poly.var v) .half)
  | unknown {t : String} (ht : Formula.IsFragment t.toList) : IsElementary (.unknown t)

/-- What decides the place of an elementary atom among the others. -/
structure Key where
  rank : ℕ
  base : ℤ
  name : String

instance : Ord Key :=
  ⟨compareLex (compareOn Key.rank) (compareLex (compareOn Key.base) (compareOn Key.name))⟩

instance : Std.TransOrd Key :=
  inferInstanceAs (Std.TransCmp
    (compareLex (compareOn Key.rank) (compareLex (compareOn Key.base) (compareOn Key.name))))

/-- The key of an atom. -/
def key : Atom → Key
  | .exp b p => ⟨4, b.numer, p.vars.headD ""⟩
  | .unknown t => ⟨7, 0, t⟩
  | a => ⟨a.rank, 0, a.vars.headD ""⟩

end Atom

theorem Poly.ofAtom_eq (a : Atom) : ofAtom a = ofTerms [(.ofFactors [(a, 1)], 1)] := rfl

/-- Variables are compared by their names also as polynomials. -/
theorem Poly.cmp_var (v w : String) : (var v).cmp (var w) = compare v w := by
  have hone : Scalar.cmp 1 1 = .eq := by decide
  have hexponent : compare (1 : ℤ) 1 = .eq := by decide
  simp only [var, ofAtom_eq, cmp, Monomial.cmpTerms, Monomial.cmp, Atom.cmpFactors, Atom.cmp,
    hone, hexponent, Ordering.then_eq]

namespace Atom

/-- **The order is that of the keys**: the kind of an atom first, then what it
holds. -/
theorem cmp_eq_compare_key {a b : Atom} (ha : a.IsElementary) (hb : b.IsElementary) :
    a.cmp b = compare a.key b.key := by
  -- atoms of different kinds are told apart by their ranks alone
  cases ha with
  | var =>
      cases hb with
      | var => rfl
      | _ => rfl
  | log =>
      cases hb with
      | log => exact Poly.cmp_var _ _
      | _ => rfl
  | @exp b v hb' hfits =>
      cases hb with
      | @exp c w hc hfits' =>
          have hbase : Scalar.cmp (.ofNat b) (.ofNat c) = compare (b : ℤ) c :=
            Scalar.cmp_ofInt hfits hfits'
          simp only [Atom.cmp, hbase, Poly.cmp_var]
          rfl
      | _ => rfl
  | sqrt =>
      cases hb with
      | sqrt =>
          have hhalf : Scalar.cmp .half .half = .eq := by decide
          simp only [Atom.cmp, hhalf, Poly.cmp_var, Ordering.then_eq]
          rfl
      | _ => rfl
  | unknown =>
      cases hb with
      | unknown => rfl
      | _ => rfl

theorem IsElementary.hasOverflow {a : Atom} (ha : a.IsElementary) : a.hasOverflow = false := by
  cases ha <;> rfl

theorem linearOn_isElementary : Assoc.LinearOn IsElementary :=
  .of_key (fun a b h => (eq_of_cmp a b h).symm) fun _ _ => cmp_eq_compare_key

end Atom

/-! ## Monomials

A monomial over elementary atoms is a list with increasing keys, so it is
decided by its entries and the order in which factors were multiplied does not
matter. -/

namespace Monomial

/-- All factors are powers of elementary atoms. -/
def OverElementary (m : Monomial) : Prop :=
  ∀ f ∈ m.factors, f.1.IsElementary

/-- A product of powers of elementary atoms holds no overflow. -/
theorem OverElementary.hasOverflow {m : Monomial} (hm : m.OverElementary) :
    m.hasOverflow = false := by
  obtain ⟨fs⟩ := m
  show Atom.anyOverflow fs = false
  induction fs with
  | nil => rfl
  | cons f fs ih =>
      obtain ⟨hf, hfs⟩ := List.forall_mem_cons.mp hm
      rw [Atom.anyOverflow, hf.hasOverflow, ih hfs]
      rfl

theorem linearOn_overElementary : Assoc.LinearOn OverElementary :=
  linearOn_of_key fun _ _ => Atom.cmp_eq_compare_key

/-- An exponent other than zero such that neither it nor its opposite is
clamped. -/
def IsExponent (e : ℤ) : Prop :=
  e ≠ 0 ∧ e.natAbs < 2 ^ 63

theorem saturate_of_natAbs_lt {z : ℤ} (h : z.natAbs < 2 ^ 63) : saturate 64 z = z :=
  saturate_of_fitsSigned (fitsSigned_iff.mpr (by omega))

/-- Powers of elementary atoms in the order of the atoms. -/
structure Elementary (m : Monomial) : Prop where
  overElementary : m.OverElementary
  isExponent : ∀ f ∈ m.factors, IsExponent f.2
  sorted : Assoc.Sorted m.factors

variable {m n : Monomial}

/-- The empty product is elementary. -/
theorem elementary_one : one.Elementary where
  overElementary f hf := by cases hf
  isExponent f hf := by cases hf
  sorted := List.Pairwise.nil

theorem of_eq (a : Atom) {e : ℤ} (he : e ≠ 0) : of a e = ofFactors [(a, e)] :=
  if_neg he

/-- Multiplying by it merges one factor. -/
theorem mul_of (m : Monomial) (a : Atom) {e : ℤ} (he : e ≠ 0) :
    m.mul (of a e) = m.mulFactor a e := by
  rw [of_eq a he]
  rfl

/-- A monomial is decided by its list of factors. -/
theorem eq_of_factors (h : m.factors = n.factors) : m = n := by
  obtain ⟨fs⟩ := m
  obtain ⟨gs⟩ := n
  exact congrArg ofFactors h

/-- A power of an elementary atom is elementary. -/
theorem elementary_of {a : Atom} {e : ℤ} (ha : a.IsElementary) (he : IsExponent e) :
    (of a e).Elementary := by
  rw [of_eq a he.1]
  exact ⟨by simpa [OverElementary, factors] using ha, by simpa [factors] using he,
    List.pairwise_singleton _ _⟩

namespace Elementary

/-- Any of the factors of a monomial make a monomial. -/
theorem sublist (hm : m.Elementary) {fs : List (Atom × ℤ)} (h : fs.Sublist m.factors) :
    (ofFactors fs).Elementary where
  overElementary f hf := hm.overElementary f (h.subset hf)
  isExponent f hf := hm.isExponent f (h.subset hf)
  sorted := hm.sorted.sublist h

/-- **A monomial is the product of its factors.**  They may be divided up into
two lists in any way; only the first one, to which the others are multiplied,
has to be sorted. -/
theorem eq_mul (hm : m.Elementary) {fs gs : List (Atom × ℤ)} (hfs : Assoc.Sorted fs)
    (hperm : (gs ++ fs).Perm m.factors) : (ofFactors fs).mul (ofFactors gs) = m := by
  have hwrite : ∀ g ∈ gs, (let total := saturate 64 ((none : Option ℤ).getD 0 + g.2)
      if total = 0 then none else some total) = some g.2 := by
    intro g hg
    obtain ⟨hzero, hbound⟩ := hm.isExponent g (hperm.mem_iff.mp (by simp [hg]))
    simp only [Option.getD_none, zero_add, saturate_of_natAbs_lt hbound, if_neg hzero]
  refine eq_of_factors ?_
  exact Atom.linearOn_isElementary.foldl_new_eq factors (fun acc f => acc.mulFactor f.1 f.2)
    (s := ofFactors fs) (fun s e => rfl) hwrite hm.overElementary hm.sorted hfs hperm

theorem one_mul (hm : m.Elementary) : one.mul m = m := by
  obtain ⟨fs⟩ := m
  exact hm.eq_mul List.Pairwise.nil (by simp [factors])

/-! ### Exponents

A monomial is decided by the exponents of its atoms, so a product of two is
known as soon as the exponents are shown to add up.  This needs that no sum of
exponents is clamped. -/

/-- A stored factor has its own exponent, as bases do not repeat. -/
theorem exponentOf_of_mem (hm : m.Elementary) {f : Atom × ℤ} (hf : f ∈ m.factors) :
    m.exponentOf f.1 = f.2 := by
  have hfind := (Atom.linearOn_isElementary.find?_eq_some_iff hm.overElementary hm.sorted
    (hm.overElementary f hf)).mpr hf
  rw [exponentOf, hfind]
  rfl

/-- An atom is a factor, or its exponent is zero. -/
theorem exponentOf_cases (hm : m.Elementary) {a : Atom} (ha : a.IsElementary) :
    m.exponentOf a = 0 ∨ (a, m.exponentOf a) ∈ m.factors := by
  cases hfind : Assoc.find? a m.factors with
  | none => exact Or.inl (by rw [exponentOf, hfind]; rfl)
  | some e =>
      have hmem := (Atom.linearOn_isElementary.find?_eq_some_iff hm.overElementary hm.sorted
        ha).mp hfind
      exact Or.inr ((hm.exponentOf_of_mem hmem).symm ▸ hmem)

/-- All exponents are below `2 ^ 63`, also those of atoms that do not occur. -/
theorem natAbs_exponentOf_lt (hm : m.Elementary) {a : Atom} (ha : a.IsElementary) :
    (m.exponentOf a).natAbs < 2 ^ 63 := by
  rcases hm.exponentOf_cases ha with hzero | hmem
  · rw [hzero]
    decide
  · exact (hm.isExponent _ hmem).2

/-- **A monomial is decided by its exponents.** -/
theorem ext (hm : m.Elementary) (hn : n.Elementary)
    (h : ∀ a, a.IsElementary → m.exponentOf a = n.exponentOf a) : m = n := by
  have hvalue : ∀ {m : Monomial}, m.Elementary → ∀ {a : Atom}, a.IsElementary →
      Assoc.find? a m.factors = if m.exponentOf a = 0 then none else some (m.exponentOf a) := by
    intro m hm a ha
    have hiff := fun e => Atom.linearOn_isElementary.find?_eq_some_iff (v := e) hm.overElementary
      hm.sorted ha
    rcases hm.exponentOf_cases ha with hzero | hmem
    · rw [if_pos hzero, Option.eq_none_iff_forall_ne_some]
      intro e hfind
      have hmem := (hiff e).mp hfind
      exact (hm.isExponent _ hmem).1 ((hm.exponentOf_of_mem hmem).symm.trans hzero)
    · rw [if_neg (hm.isExponent _ hmem).1]
      exact (hiff _).mpr hmem
  refine eq_of_factors (Atom.linearOn_isElementary.ext hm.overElementary hn.overElementary
    hm.sorted hn.sorted fun a ha => ?_)
  rw [hvalue hm ha, hvalue hn ha, h a ha]

/-- Multiplication by a power of one atom adds to its exponent. -/
theorem mulFactor (hm : m.Elementary) {a : Atom} {e : ℤ} (ha : a.IsElementary)
    (he : (m.exponentOf a + e).natAbs < 2 ^ 63) :
    (m.mulFactor a e).Elementary ∧ (m.mulFactor a e).exponentOf a = m.exponentOf a + e ∧
      ∀ b, b ≠ a → (m.mulFactor a e).exponentOf b = m.exponentOf b := by
  have hlinear := Atom.linearOn_isElementary
  set write : Option ℤ → Option ℤ := fun old =>
    let total := saturate 64 (old.getD 0 + e)
    if total = 0 then none else some total with hwrite
  -- what the write does to its own atom and to all others
  have hself : Assoc.find? a (m.mulFactor a e).factors =
      if m.exponentOf a + e = 0 then none else some (m.exponentOf a + e) := by
    have hfind := hlinear.find?_alter_self hm.overElementary hm.sorted ha write
    have htotal : saturate 64 ((Assoc.find? a m.factors).getD 0 + e) = m.exponentOf a + e :=
      saturate_of_natAbs_lt he
    simp only [hwrite, htotal] at hfind
    exact hfind
  have hother : ∀ b, b ≠ a →
      Assoc.find? b (m.mulFactor a e).factors = Assoc.find? b m.factors := fun b hb =>
    hlinear.find?_alter_of_ne hb.symm write
  have hover : (m.mulFactor a e).OverElementary := hlinear.keys_alter hm.overElementary ha write
  have hsorted : Assoc.Sorted (m.mulFactor a e).factors :=
    hlinear.sorted_alter hm.overElementary hm.sorted ha write
  refine ⟨⟨hover, fun f hf => ?_, hsorted⟩, ?_, fun b hb => ?_⟩
  · have hfind := (hlinear.find?_eq_some_iff hover hsorted (hover f hf)).mpr hf
    by_cases hb : f.1 = a
    · rw [hb, hself, Option.ite_none_left_eq_some, Option.some.injEq] at hfind
      rw [← hfind.2]
      exact ⟨hfind.1, he⟩
    · rw [hother f.1 hb] at hfind
      exact hm.isExponent f
        ((hlinear.find?_eq_some_iff hm.overElementary hm.sorted (hover f hf)).mp hfind)
  · rw [exponentOf, hself]
    split
    · next hzero => exact hzero.symm
    · rfl
  · rw [exponentOf, hother b hb, exponentOf]

/-- **Exponents add up in a product.** -/
theorem mul (hm : m.Elementary) (hn : n.Elementary)
    (hrange : ∀ a, a.IsElementary → (m.exponentOf a + n.exponentOf a).natAbs < 2 ^ 63) :
    (m.mul n).Elementary ∧
      ∀ a, a.IsElementary → (m.mul n).exponentOf a = m.exponentOf a + n.exponentOf a := by
  obtain ⟨fs⟩ := n
  show (fs.foldl _ m).Elementary ∧ ∀ a, _ → (fs.foldl _ m).exponentOf a = _
  induction fs generalizing m with
  | nil => exact ⟨hm, fun a _ => (add_zero _).symm⟩
  | cons f fs ih =>
      have hrest : (ofFactors fs).Elementary := hn.sublist (List.sublist_cons_self f fs)
      have hf : f.1.IsElementary := hn.overElementary f List.mem_cons_self
      have hfirst : (ofFactors (f :: fs)).exponentOf f.1 = f.2 :=
        hn.exponentOf_of_mem List.mem_cons_self
      have hlater : ∀ a, a ≠ f.1 →
          (ofFactors (f :: fs)).exponentOf a = (ofFactors fs).exponentOf a := by
        intro a ha
        have hne : compare a f.1 ≠ .eq := fun heq => ha (Atom.eq_of_cmp a f.1 heq)
        simp [exponentOf, factors, Assoc.find?, hne]
      -- the first atom does not occur again
      have hgone : (ofFactors fs).exponentOf f.1 = 0 := by
        have hnone : Assoc.find? f.1 fs = none := by
          refine Assoc.find?_eq_none f.1 fun g hg => ?_
          rw [(List.pairwise_cons.mp hn.sorted).1 g hg]
          decide
        simp [exponentOf, factors, hnone]
      obtain ⟨hnext, hself, hother⟩ := hm.mulFactor (e := f.2) hf
        (by simpa [hfirst] using hrange f.1 hf)
      have hvalue : ∀ a, a.IsElementary → (m.mulFactor f.1 f.2).exponentOf a +
          (ofFactors fs).exponentOf a = m.exponentOf a + (ofFactors (f :: fs)).exponentOf a := by
        intro a _
        by_cases ha : a = f.1
        · rw [ha, hself, hgone, hfirst, add_zero]
        · rw [hother a ha, hlater a ha]
      obtain ⟨hall, hsum⟩ := ih hnext hrest fun a ha => by
        rw [hvalue a ha]
        exact hrange a ha
      exact ⟨hall, fun a ha => (hsum a ha).trans (hvalue a ha)⟩

end Elementary

/-! ### Powers -/

/-- A power in which no exponent is clamped or vanishes. -/
theorem pow_eq {k : ℤ} (h : ∀ f ∈ m.factors, IsExponent (f.2 * k)) :
    m.pow k = ofFactors (m.factors.map fun f => (f.1, f.2 * k)) := by
  have hmap : (m.factors.map fun f => (f.1, saturate 64 (f.2 * k))) =
      m.factors.map fun f => (f.1, f.2 * k) :=
    List.map_congr_left fun f hf => by rw [saturate_of_natAbs_lt (h f hf).2]
  rw [pow, hmap, List.filter_eq_self.mpr]
  intro g hg
  obtain ⟨f, hf, rfl⟩ := List.mem_map.mp hg
  exact decide_eq_true (h f hf).1

theorem IsExponent.neg {e : ℤ} (h : IsExponent e) : IsExponent (-e) :=
  ⟨neg_ne_zero.mpr h.1, by simpa using h.2⟩

namespace Elementary

/-- The reciprocal has the opposite exponents. -/
theorem inverse_eq (hm : m.Elementary) :
    m.inverse = ofFactors (m.factors.map fun f => (f.1, -f.2)) := by
  rw [inverse, pow_eq fun f hf => by simpa using (hm.isExponent f hf).neg]
  simp

/-- The reciprocal of an elementary monomial is elementary. -/
theorem inverse (hm : m.Elementary) : m.inverse.Elementary := by
  rw [hm.inverse_eq]
  refine ⟨fun f hf => ?_, fun f hf => ?_, ?_⟩
  · obtain ⟨g, hg, rfl⟩ := List.mem_map.mp hf
    exact hm.overElementary g hg
  · obtain ⟨g, hg, rfl⟩ := List.mem_map.mp hf
    exact (hm.isExponent g hg).neg
  · exact List.pairwise_map.mpr hm.sorted

/-- The exponents of the reciprocal are the opposite ones. -/
theorem exponentOf_inverse (hm : m.Elementary) (a : Atom) :
    m.inverse.exponentOf a = -m.exponentOf a := by
  rw [hm.inverse_eq, exponentOf, factors, Assoc.find?_map, exponentOf]
  cases Assoc.find? a m.factors <;> rfl

/-- The reciprocal of the reciprocal is the monomial itself, since no exponent
is clamped. -/
theorem inverse_inverse (hm : m.Elementary) : m.inverse.inverse = m := by
  rw [hm.inverse.inverse_eq, hm.inverse_eq]
  refine eq_of_factors ?_
  show (m.factors.map fun f => (f.1, -f.2)).map (fun f => (f.1, -f.2)) = m.factors
  simp [Function.comp_def]

/-- The first power changes nothing. -/
theorem pow_one (hm : m.Elementary) : m.pow 1 = m := by
  rw [pow_eq fun f hf => by simpa using hm.isExponent f hf]
  refine eq_of_factors ?_
  simp [factors]

end Elementary

/-! ### Numerators and denominators

A term is printed as a quotient of two products with positive exponents.
Putting the second one under a bar gives the monomial back. -/

/-- The factors with positive exponents. -/
def numerator (m : Monomial) : Monomial :=
  .ofFactors (m.factors.filter fun f => 0 < f.2)

/-- The factors with negative exponents, these made positive. -/
def denominator (m : Monomial) : Monomial :=
  .ofFactors ((m.factors.filter fun f => f.2 < 0).map fun f => (f.1, -f.2))

theorem Elementary.numerator (hm : m.Elementary) : m.numerator.Elementary :=
  hm.sublist List.filter_sublist

/-- What is below the bar is the reciprocal of the factors with negative
exponents. -/
theorem denominator_eq (hm : m.Elementary) :
    m.denominator = (ofFactors (m.factors.filter fun f => f.2 < 0)).inverse :=
  (hm.sublist List.filter_sublist).inverse_eq.symm

/-- What is below the bar is elementary. -/
theorem Elementary.denominator (hm : m.Elementary) : m.denominator.Elementary := by
  rw [denominator_eq hm]
  exact (hm.sublist List.filter_sublist).inverse

/-- A monomial is the quotient of its numerator and its denominator. -/
theorem Elementary.numerator_mul_inverse (hm : m.Elementary) :
    m.numerator.mul m.denominator.inverse = m := by
  have hnegative : m.factors.filter (fun f => f.2 < 0) = m.factors.filter fun f => !(0 < f.2) := by
    refine List.filter_congr fun f hf => ?_
    have hzero := (hm.isExponent f hf).1
    rw [← decide_not, decide_eq_decide]
    omega
  rw [denominator_eq hm, (hm.sublist List.filter_sublist).inverse_inverse]
  refine hm.eq_mul (hm.sorted.sublist List.filter_sublist) ?_
  rw [hnegative]
  exact List.perm_append_comm.trans (List.filter_append_perm _ _)

end Monomial

/-! ## Polynomials -/

namespace Poly

/-- Elementary monomials in their order, with coefficients other than zero whose
parts fit. -/
structure Elementary (p : Poly) : Prop where
  elementary : ∀ t ∈ p.terms, t.1.Elementary
  fits : ∀ t ∈ p.terms, t.2.Fits
  ne_zero : ∀ t ∈ p.terms, t.2.isZero = false
  sorted : Assoc.Sorted p.terms

variable {p q : Poly}

/-- A polynomial is decided by its list of terms. -/
theorem eq_of_terms (h : p.terms = q.terms) : p = q := by
  obtain ⟨ts⟩ := p
  obtain ⟨us⟩ := q
  exact congrArg ofTerms h

theorem term_eq {c : Scalar} (hc : c.isZero = false) (m : Monomial) :
    term c m = ofTerms [(m, c)] := by
  simp [term, hc]

/-- The empty sum is elementary. -/
theorem elementary_zero : zero.Elementary where
  elementary t ht := by cases ht
  fits t ht := by cases ht
  ne_zero t ht := by cases ht
  sorted := List.Pairwise.nil

/-- A term whose coefficient fits is elementary. -/
theorem elementary_term {c : Scalar} {m : Monomial} (hc : c.Fits) (hm : m.Elementary) :
    (term c m).Elementary := by
  by_cases hzero : c.isZero = true
  · rw [term, if_pos hzero]
    exact elementary_zero
  · rw [Bool.not_eq_true] at hzero
    rw [term_eq hzero]
    exact ⟨by simpa [terms] using hm, by simpa [terms] using hc, by simpa [terms] using hzero,
      List.pairwise_singleton _ _⟩

/-- Adding a single term merges one entry. -/
theorem add_term {c : Scalar} (hc : c.isZero = false) (p : Poly) (m : Monomial) :
    p.add (term c m) = p.addTerm m c := by
  rw [term_eq hc]
  rfl

/-- The first term of a sum is stored as it is. -/
theorem zero_addTerm {c : Scalar} (hc : c.IsCoefficient) (m : Monomial) :
    zero.addTerm m c = term c m := by
  rw [term_eq hc.ne_zero]
  simp [addTerm, zero, terms, Assoc.alter, hc.bounded.zero_add, hc.ne_zero]

/-! ### Single terms

What a reader computes with before it comes to sums are single terms.  On these
all operations are those of scalars and monomials, side by side. -/

/-- The product of two terms. -/
theorem term_mul_term {x y : Scalar} (hx : x.isZero = false) (hy : y.isZero = false)
    (m n : Monomial) : (term x m).mul (term y n) = term (x * y) (m.mul n) := by
  have hxy := Scalar.IsCoefficient.mul hx hy
  rw [term_eq hx, term_eq hy]
  show zero.add (term (x * y) (m.mul n)) = _
  rw [add_term hxy.ne_zero, zero_addTerm hxy]

/-- Scaling a single term multiplies its coefficient. -/
theorem scale_term {c x : Scalar} (hc : c.isZero = false) (hx : x.isZero = false) (m : Monomial) :
    (term c m).scale x = term (c * x) m := by
  rw [term_eq hc, term_eq (Scalar.IsCoefficient.mul hc hx).ne_zero, scale, hx,
    if_neg Bool.false_ne_true]
  rfl

theorem neg_term {c : Scalar} (hc : c.isZero = false) (m : Monomial) :
    (term c m).neg = term (-c) m := by
  rw [term_eq hc, term_eq (Scalar.isZero_neg_of_ne hc)]
  rfl

/-- A single term is a constant just if its monomial is the empty product. -/
theorem asConstant?_term {c : Scalar} (hc : c.isZero = false) (m : Monomial) :
    (term c m).asConstant? = if m.isOne then some c else none := by
  rw [term_eq hc]
  rfl

/-- The quotient of two terms, if the reciprocal of the divisor's coefficient
fits. -/
theorem term_div_term {x y r : Scalar} (hx : x.isZero = false) (hy : y.isZero = false)
    (hr : y.recip? = some r) (hfits : r.Fits) (hr0 : r.isZero = false) (m : Monomial)
    {n : Monomial} (hn : n.Elementary) :
    (term x m).div (term y n) = term (x * r) (m.mul n.inverse) := by
  rw [div, asConstant?_term hy]
  -- a divisor without variables is a constant, and division scales by its
  -- reciprocal
  by_cases hone : n.isOne = true
  · have hfactors : n.inverse.factors = [] := by
      rw [hn.inverse_eq, List.isEmpty_iff.mp hone]
      rfl
    have hdiv : (1 : Scalar).div? y = some r := by
      rw [Scalar.div?, hr, Option.map_some, hfits.one_mul]
    have hmul : m.mul n.inverse = m := by
      rw [Monomial.mul, hfactors]
      rfl
    rw [if_pos hone, hmul]
    simp only [hdiv]
    exact scale_term hx hr0 m
  · have hpow : y.pow? (wrapSigned 32 (-1)) = some r := by
      show (y.recip?.map fun r => Scalar.powFrom r 1 1) = some r
      rw [hr, Option.map_some]
      show some (1 * r) = some r
      rw [hfits.one_mul]
    have hinverse : (term y n).powInt (-1) = term r n.inverse := by
      rw [powInt, if_pos (by decide), term_eq hy]
      simp only [singleTerm?, terms, hpow, neg_neg, hn.inverse.pow_one]
    rw [if_neg hone]
    simp only [hinverse]
    exact term_mul_term hx hr0 m n.inverse

theorem one_mul_term {x : Scalar} (hx : x.Fits) (hx0 : x.isZero = false) {m : Monomial}
    (hm : m.Elementary) : one.mul (term x m) = term x m := by
  rw [one, constant, term_mul_term rfl hx0, hx.one_mul, hm.one_mul]

/-- A term is multiplied by powers one after the other. -/
theorem foldl_mul_powers {x : Scalar} (hx : x.Fits) (hx0 : x.isZero = false)
    {fs : List (Atom × ℤ)} (hfs : ∀ f ∈ fs, f.2 ≠ 0) (m : Monomial) :
    fs.foldl (fun product f => product.mul (term 1 (.of f.1 f.2))) (term x m) =
      term x (m.mul (.ofFactors fs)) := by
  induction fs generalizing m with
  | nil => rfl
  | cons f fs ih =>
      obtain ⟨hf, hfs⟩ := List.forall_mem_cons.mp hfs
      rw [List.foldl_cons, term_mul_term hx0 rfl, hx.mul_one, ih hfs,
        Monomial.of_eq f.1 hf]
      rfl

/-! ### Powers of atoms

A power of an atom is made by multiplying the atom with itself, or by one
multiplication of its exponent where that is great.  Both give the single factor
with that exponent. -/

section Power

variable {a : Atom} (ha : a.IsElementary)
include ha

/-- One more factor raises the exponent by one, as long as the word holds it. -/
theorem of_mul_of {k : ℕ} (hk : k + 1 < 2 ^ 63) :
    (Monomial.of a k).mul (.of a 1) = .of a (k + 1 : ℕ) := by
  have hself : compare a a = .eq := Atom.linearOn_isElementary.compare_self ha
  cases k with
  | zero => rfl
  | succ k =>
      have htotal : saturate 64 ((k + 1 : ℕ) + 1) = (k + 1 + 1 : ℕ) :=
        Monomial.saturate_of_natAbs_lt (by omega)
      rw [Monomial.of_eq a (by omega), Monomial.of_eq a one_ne_zero, Monomial.of_eq a (by omega)]
      show Monomial.ofFactors (Assoc.alter a _ [(a, _)]) = _
      simp only [Assoc.alter, hself, Option.getD_some, htotal]
      rw [if_neg (by omega)]

/-- A natural power of an atom. -/
theorem powNat_ofAtom {k : ℕ} (hk : k < 2 ^ 63) : (ofAtom a).powNat k = term 1 (.of a k) := by
  have hone : (1 : Scalar) * 1 = 1 := Scalar.one_fits.one_mul
  have hfrom : ∀ k i : ℕ, i + k < 2 ^ 63 →
      powFrom (ofAtom a) (term 1 (.of a i)) k = term 1 (.of a (i + k : ℕ)) := by
    intro k
    induction k with
    | zero => exact fun i _ => rfl
    | succ k ih =>
        intro i hi
        have hstep : (term 1 (.of a i)).mul (ofAtom a) = term 1 (.of a (i + 1 : ℕ)) := by
          rw [ofAtom, term_mul_term rfl rfl, hone,
            of_mul_of ha (by omega)]
        rw [powFrom, hstep, ih (i + 1) (by omega), Nat.add_right_comm, Nat.add_assoc]
  have hall := hfrom k 0 (by omega)
  rw [Nat.zero_add] at hall
  exact hall

/-- A positive power of an atom is found by repeated multiplication, or by one
multiplication of its exponent if that is great. -/
theorem power_ofAtom {k : ℕ} (hpos : k ≠ 0) (hk : k < 2 ^ 63) :
    (ofAtom a).power (constant (.ofNat k)) = term 1 (.of a k) := by
  have hzero : (Scalar.ofNat k).isZero = false :=
    Scalar.isZero_ofInt_of_ne (Int.natCast_ne_zero.mpr hpos)
  have hint : (Scalar.ofNat k).toInt? = some (k : ℤ) := rfl
  rw [power, constant, asConstant?_term hzero]
  show (ofAtom a).powRational (.ofNat k) = _
  rw [powRational, hint]
  -- up to 64 the atom is multiplied by itself
  by_cases hsmall : k ≤ 64
  · have hfilter : (some (k : ℤ)).filter (fun k => -64 ≤ k && k ≤ 64) = some (k : ℤ) := by
      simp
      omega
    simp only [hfilter]
    rw [powInt, if_neg (by omega)]
    exact powNat_ofAtom ha hk
  · have hfilter : (some (k : ℤ)).filter (fun k => -64 ≤ k && k ≤ 64) = none := by
      simp
      omega
    have hfits : (Scalar.ofNat k).Fits :=
      .ofInt (Scalar.fits_iff.mpr (by simp only [Int.ofNat_eq_natCast, Int.natAbs_natCast]; omega))
    -- the exponent is narrowed to a word, which it fits
    have hwrap : wrapSigned 64 (k : ℤ) = k :=
      wrapSigned_of_fitsSigned (by decide) (fitsSigned_iff.mpr (by omega))
    have hscaled : scaleExponents? [(a, 1)] (.ofNat k) = some [(a, (k : ℤ))] := by
      have hproduct : Scalar.ofInt 1 * .ofNat k = .ofNat k := hfits.one_mul
      simp [scaleExponents?, hproduct, hint, hwrap]
    have hsingle : (ofAtom a).singleTerm? = some (.ofFactors [(a, 1)], 1) := rfl
    have hone : (1 : Scalar).isOne = true := rfl
    simp only [hfilter, hsingle, Option.bind_eq_bind, Option.bind_some, hone, if_true,
      Monomial.factors, hscaled]
    rw [Monomial.of_eq a (by omega)]

end Power

/-- **Terms whose monomials all differ** add up to the polynomial that has
them. -/
theorem elementary_foldl_addTerm (ts : List (Monomial × Scalar))
    (helementary : ∀ t ∈ ts, t.1.Elementary) (hfits : ∀ t ∈ ts, t.2.Fits)
    (hzero : ∀ t ∈ ts, t.2.isZero = false) (hdistinct : ts.Pairwise fun s t => s.1 ≠ t.1) :
    (ts.foldl (fun acc t => acc.addTerm t.1 t.2) zero).Elementary ∧
      (ts.foldl (fun acc t => acc.addTerm t.1 t.2) zero).terms.Perm ts := by
  have hwrite : ∀ t ∈ ts, (let total := (none : Option Scalar).getD 0 + t.2
      if total.isZero then none else some total) = some t.2 := by
    intro t ht
    simp [(hfits t ht).zero_add, hzero t ht]
  obtain ⟨hsorted, hperm⟩ := Monomial.linearOn_overElementary.foldl_new terms
    (fun acc t => acc.addTerm t.1 t.2) (s := zero) (fun s e => rfl) hwrite
    (fun t ht => (helementary t ht).overElementary) hdistinct (by simp [zero, terms])
    List.Pairwise.nil (by simp [zero, terms])
  have hterms : (ts.foldl (fun acc t => acc.addTerm t.1 t.2) zero).terms.Perm ts := by
    simpa [zero, terms] using hperm
  exact ⟨⟨fun t ht => helementary t (hterms.mem_iff.mp ht),
    fun t ht => hfits t (hterms.mem_iff.mp ht), fun t ht => hzero t (hterms.mem_iff.mp ht),
    hsorted⟩, hterms⟩

namespace Elementary

/-- No monomial stands twice in an elementary polynomial. -/
theorem distinct (hp : p.Elementary) : p.terms.Pairwise fun s t => s.1 ≠ t.1 :=
  Monomial.linearOn_overElementary.ne_of_sorted
    (fun t ht => (hp.elementary t ht).overElementary) hp.sorted

/-- **A polynomial is the sum of its terms**, in whatever order they are
added. -/
theorem foldl_addTerm (hp : p.Elementary) {ts : List (Monomial × Scalar)}
    (hperm : ts.Perm p.terms) : ts.foldl (fun acc t => acc.addTerm t.1 t.2) zero = p := by
  have hmem : ∀ t ∈ ts, t ∈ p.terms := fun t => hperm.mem_iff.mp
  obtain ⟨hsum, hterms⟩ := elementary_foldl_addTerm ts (fun t ht => hp.elementary t (hmem t ht))
    (fun t ht => hp.fits t (hmem t ht)) (fun t ht => hp.ne_zero t (hmem t ht))
    ((hperm.pairwise_iff Ne.symm).mpr hp.distinct)
  exact eq_of_terms (Monomial.linearOn_overElementary.eq_of_perm
    (fun t ht => (hsum.elementary t ht).overElementary) hsum.sorted hp.sorted (hterms.trans hperm))

/-- The product of a term and a polynomial, given by its terms in any order. -/
theorem term_mul (hp : p.Elementary) {x : Scalar} (hx : x.isZero = false) {m : Monomial}
    (hperm : (q.terms.map fun t => (m.mul t.1, x * t.2)).Perm p.terms) : (term x m).mul q = p := by
  rw [← hp.foldl_addTerm hperm, List.foldl_map, term_eq hx]
  show q.terms.foldl _ zero = _
  refine List.foldl_ext _ _ _ fun acc t ht => ?_
  have hmem := hperm.mem_iff.mp (List.mem_map_of_mem ht)
  exact add_term (hp.ne_zero _ hmem) acc (m.mul t.1)

theorem one_mul (hp : p.Elementary) : one.mul p = p := by
  have hterms : (p.terms.map fun t => (Monomial.one.mul t.1, (1 : Scalar) * t.2)) = p.terms := by
    refine (List.map_congr_left fun t ht => ?_).trans (List.map_id p.terms)
    rw [(hp.elementary t ht).one_mul, (hp.fits t ht).one_mul]
    rfl
  exact hp.term_mul rfl (.of_eq hterms)

/-- Other coefficients for the same monomials. -/
theorem mapCoefficients (hp : p.Elementary) {f : Scalar → Scalar}
    (hfits : ∀ t ∈ p.terms, (f t.2).Fits) (hzero : ∀ t ∈ p.terms, (f t.2).isZero = false) :
    (ofTerms (p.terms.map fun t => (t.1, f t.2))).Elementary := by
  refine ⟨fun t ht => ?_, fun t ht => ?_, fun t ht => ?_, ?_⟩
  · obtain ⟨u, hu, rfl⟩ := List.mem_map.mp ht
    exact hp.elementary u hu
  · obtain ⟨u, hu, rfl⟩ := List.mem_map.mp ht
    exact hfits u hu
  · obtain ⟨u, hu, rfl⟩ := List.mem_map.mp ht
    exact hzero u hu
  · exact List.pairwise_map.mpr hp.sorted

theorem neg (hp : p.Elementary) : p.neg.Elementary :=
  hp.mapCoefficients (fun t ht => (hp.fits t ht).neg) fun t ht =>
    (Scalar.IsCoefficient.neg ⟨(hp.fits t ht).bounded, hp.ne_zero t ht⟩).ne_zero

theorem neg_one_mul (hp : p.Elementary) : (term (.ofInt (-1)) .one).mul p = p.neg := by
  refine hp.neg.term_mul rfl (.of_eq ?_)
  refine List.map_congr_left fun t ht => ?_
  rw [(hp.elementary t ht).one_mul, (hp.fits t ht).neg_one_mul]

section Scale

variable {n : ℕ} (hn : n ≠ 0) (hscaled : ∀ t ∈ p.terms, (t.2 * .ofNat n).Fits)
include hn

/-- Scaling by a number other than zero goes along the terms, and drops none. -/
theorem scale_eq (p : Poly) :
    p.scale (.ofNat n) = ofTerms (p.terms.map fun t => (t.1, t.2 * .ofNat n)) := by
  have hzero : (Scalar.ofNat n).isZero = false :=
    Scalar.isZero_ofInt_of_ne (Int.natCast_ne_zero.mpr hn)
  rw [scale, hzero]
  rfl

include hscaled

/-- If the products fit, the result is elementary again. -/
theorem scale (hp : p.Elementary) : (p.scale (.ofNat n)).Elementary := by
  rw [scale_eq hn]
  refine hp.mapCoefficients (f := (· * .ofNat n)) hscaled fun t ht => ?_
  exact (Scalar.IsCoefficient.mul (hp.ne_zero t ht)
    (Scalar.isZero_ofInt_of_ne (Int.natCast_ne_zero.mpr hn))).ne_zero

/-- A multiple is divided by its factor. -/
theorem scale_div (hp : p.Elementary) (hfits : Scalar.fits n = true) :
    (p.scale (.ofNat n)).div (constant (.ofNat n)) = p := by
  have hzero : (Scalar.ofNat n).isZero = false :=
    Scalar.isZero_ofInt_of_ne (Int.natCast_ne_zero.mpr hn)
  obtain ⟨hrecip, hinverse, hinverse0⟩ := Scalar.recip?_ofNat hn hfits
  have hdiv : (1 : Scalar).div? (.ofNat n) = some (.exact (n : ℚ)⁻¹) := by
    rw [Scalar.div?, hrecip, Option.map_some, hinverse.one_mul]
  have hconstant : (constant (.ofNat n)).asConstant? = some (.ofNat n) :=
    asConstant?_term hzero Monomial.one
  simp only [div, hconstant, hdiv]
  rw [Poly.scale, hinverse0, scale_eq hn]
  refine eq_of_terms ?_
  show ((p.terms.map _).map _) = p.terms
  rw [List.map_map]
  refine (List.map_congr_left fun t ht => ?_).trans (List.map_id p.terms)
  exact Prod.ext rfl ((hp.fits t ht).mul_ofNat_mul_inv hn (hscaled t ht))

end Scale

/-- Scaling by one changes nothing. -/
theorem scale_one (hp : p.Elementary) : p.scale (.ofNat 1) = p := by
  rw [scale_eq one_ne_zero]
  refine eq_of_terms ((List.map_congr_left fun t ht => ?_).trans (List.map_id p.terms))
  exact Prod.ext rfl (hp.fits t ht).mul_one

theorem hasOverflow (hp : p.Elementary) : p.hasOverflow = false := by
  obtain ⟨ts⟩ := p
  have hfits : ∀ t ∈ ts, t.2.Fits := hp.fits
  have hatoms : ∀ t ∈ ts, t.1.Elementary := hp.elementary
  show Monomial.anyOverflow ts = false
  clear hp
  induction ts with
  | nil => rfl
  | cons t ts ih =>
      obtain ⟨ht, hts⟩ := List.forall_mem_cons.mp hfits
      obtain ⟨hm, hms⟩ := List.forall_mem_cons.mp hatoms
      rw [Monomial.anyOverflow, ht.isOverflow, hm.overElementary.hasOverflow, ih hts hms]
      rfl

end Elementary

end Poly

end CostAnalysis
