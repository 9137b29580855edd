import CostAnalysis.Proofs.Poly.Listed
import CostAnalysis.Proofs.Poly.Plain
import Mathlib.Algebra.CharZero.Infinite
import Mathlib.Algebra.MvPolynomial.Funext

/-!
# A polynomial in variables is decided by its values

The terms of a polynomial are listed in the order of their monomials, without
zero coefficients, and all ring operations keep it so (`Poly.Ordered`).  What
this is for is uniqueness: two such polynomials in variables that have the same
value wherever the variables are set are equal as lists
(`Poly.Ordered.eq_of_value_eq`).

Two facts carry that.  A sorted list is decided by what is looked up in it, so
monomials are decided by their exponents and polynomials by their coefficients.
And the coefficients are those of a polynomial in the sense of algebra
(`Poly.toMvPolynomial`), which over an infinite field is decided by its values.

**Why over variables only.**  An exponent of a plain monomial is a natural,
which makes it one of algebra, and the values of distinct variables are
independent of each other.  For other atoms the latter is not so, and lists over
these are decided by a Laurent polynomial instead.
-/

namespace CostAnalysis

open MvPolynomial (coeff eval monomial)

/-! ## Looking up in sums -/

/-- A sum over a sorted list that is cut down to one key is what is looked up
for it. -/
theorem Assoc.LinearOn.sum_ite_key {κ : Type u} {ν : Type v} [Ord κ] {K : κ → Prop}
    {M : Type w} [AddCommMonoid M] (h : LinearOn K) {entries : List (κ × ν)}
    (hkeys : ∀ e ∈ entries, K e.1) (hsorted : Sorted entries) {k : κ} (hk : K k) (g : ν → M)
    [DecidableEq κ] :
    (entries.map fun e => if e.1 = k then g e.2 else 0).sum = ((find? k entries).map g).getD 0 := by
  obtain ⟨before, old?, after, rfl, hbefore, hafter, -⟩ := h.cut hkeys hsorted hk
  have hother : ∀ l : List (κ × ν), (∀ e ∈ l, e.1 ≠ k) →
      (l.map fun e => if e.1 = k then g e.2 else 0).sum = 0 := by
    intro l hl
    refine List.sum_eq_zero fun x hx => ?_
    obtain ⟨e, he, rfl⟩ := List.mem_map.mp hx
    exact if_neg (hl e he)
  have hbelow : ∀ e ∈ before, e.1 ≠ k := fun e he heq => h.irrefl hk (heq ▸ hbefore e he)
  have habove : ∀ e ∈ after, e.1 ≠ k := fun e he heq => h.irrefl hk (heq ▸ hafter e he)
  rw [h.find?_cut hk hbefore hafter, List.map_append, List.map_append, List.sum_append,
    List.sum_append, hother before hbelow, hother after habove, zero_add, add_zero]
  cases old? <;> simp

/-! ## Monomials over variables

Exponents are looked up in the list of factors.  Since the list is sorted and
has no exponent zero, what is looked up decides the list. -/

namespace Atom

/-- The name of a variable. -/
def name (a : Atom) : String :=
  a.vars.headD ""

@[simp] theorem name_var (v : String) : (var v).name = v := rfl

namespace IsVar

variable {a b : Atom}

/-- Variables are compared by their names. -/
theorem cmp_eq (ha : a.IsVar) (hb : b.IsVar) : a.cmp b = compare a.name b.name := by
  obtain ⟨v, rfl⟩ := ha
  obtain ⟨w, rfl⟩ := hb
  rfl

theorem eq_var_iff (ha : a.IsVar) {v : String} : a = var v ↔ a.name = v := by
  obtain ⟨w, rfl⟩ := ha
  simp

end IsVar

end Atom

namespace Monomial

variable {m n : Monomial} {d d' : ℕ}

/-- All factors are powers of variables. -/
def OverVars (m : Monomial) : Prop :=
  ∀ f ∈ m.factors, f.1.IsVar

theorem linearOn_overVars : Assoc.LinearOn OverVars :=
  linearOn_of_key fun _ _ => Atom.IsVar.cmp_eq

/-- The empty product is one of them. -/
theorem overVars_one : one.OverVars := by
  intro f hf
  cases hf

theorem overVars_of (v : String) (e : ℤ) : (of (.var v) e).OverVars := by
  rw [of]
  split
  · exact overVars_one
  · simp [OverVars, factors]

/-- The exponents of the variables. -/
noncomputable def exponents (m : Monomial) : String →₀ ℕ :=
  (m.factors.map fun f => Finsupp.single f.1.name f.2.toNat).sum

/-- An exponent is what is looked up, and zero where there is nothing. -/
theorem Plain.exponents_apply (hm : m.Plain d) (v : String) :
    m.exponents v = ((Assoc.find? (.var v) m.factors).map Int.toNat).getD 0 := by
  classical
  rw [← Atom.linearOn_isVar.sum_ite_key hm.isVar hm.sorted (Atom.isVar_var v) Int.toNat, exponents,
    ← Finsupp.applyAddHom_apply, map_list_sum, List.map_map]
  refine congrArg List.sum (List.map_congr_left fun f hf => ?_)
  simp only [Function.comp_apply, Finsupp.applyAddHom_apply, Finsupp.single_apply,
    (hm.isVar f hf).eq_var_iff]

/-- A variable is a factor just where its exponent is not zero. -/
theorem Plain.find?_eq (hm : m.Plain d) (v : String) : Assoc.find? (.var v) m.factors =
    if m.exponents v = 0 then none else some (m.exponents v : ℤ) := by
  rw [hm.exponents_apply]
  cases hfind : Assoc.find? (.var v) m.factors with
  | none => rfl
  | some e =>
      have hmem := (Atom.linearOn_isVar.find?_eq_some_iff hm.isVar hm.sorted
        (Atom.isVar_var v)).mp hfind
      have hpos : 0 < e := hm.positive _ hmem
      simp only [Option.map_some, Option.getD_some]
      rw [if_neg (by omega), Int.toNat_of_nonneg hpos.le]

/-- **A plain monomial is decided by its exponents.** -/
theorem Plain.eq_of_exponents (hm : m.Plain d) (hn : n.Plain d')
    (h : m.exponents = n.exponents) : m = n := by
  have hfactors : m.factors = n.factors := by
    refine Atom.linearOn_isVar.ext hm.isVar hn.isVar hm.sorted hn.sorted ?_
    rintro _ ⟨v, rfl⟩
    rw [hm.find?_eq, hn.find?_eq, h]
  obtain ⟨fs⟩ := m
  obtain ⟨gs⟩ := n
  exact congrArg ofFactors hfactors

/-- The value of a plain monomial is the product of the powers of its
variables. -/
theorem Plain.prod_exponents (hm : m.Plain d) (I : Reading) :
    (m.exponents.prod fun v e => I.var v ^ e) = m.value I := by
  obtain ⟨fs⟩ := m
  obtain ⟨hvar, hpos, -, -⟩ := hm
  rw [exponents, value_eq_prod]
  simp only [factors] at hvar hpos ⊢
  induction fs with
  | nil => rfl
  | cons f fs ih =>
      obtain ⟨a, e⟩ := f
      obtain ⟨⟨v, rfl⟩, hvars⟩ := List.forall_mem_cons.mp hvar
      obtain ⟨he, hposs⟩ := List.forall_mem_cons.mp hpos
      simp only at he
      lift e to ℕ using he.le
      rw [List.map_cons, List.sum_cons, List.map_cons, List.prod_cons, ← ih hvars hposs,
        Finsupp.prod_add_index' (fun _ => pow_zero _) fun _ => pow_add _]
      simp [Atom.value, Finsupp.prod_single_index]

end Monomial

/-! ## Ordered polynomials -/

namespace Poly

variable {p q : Poly} {m : Monomial} {d d' : ℕ}

/-- Products of variables in the order of the monomials, with no zero among the
coefficients. -/
structure Ordered (p : Poly) : Prop where
  overVars : ∀ t ∈ p.terms, t.1.OverVars
  sorted : Assoc.Sorted p.terms
  ne_zero : ∀ t ∈ p.terms, t.2.isZero = false

theorem ordered_iff : p.Ordered ↔ p.Listed Monomial.OverVars :=
  ⟨fun h => ⟨h.overVars, h.sorted, h.ne_zero⟩, fun h => ⟨h.monomials, h.sorted, h.ne_zero⟩⟩

theorem ordered_term (c : Scalar) (hm : m.OverVars) : (term c m).Ordered :=
  ordered_iff.mpr (listed_term c hm)

theorem ordered_constant (c : Scalar) : (constant c).Ordered :=
  ordered_term c Monomial.overVars_one

theorem ordered_var (v : String) : (var v).Ordered :=
  ordered_term 1 (Monomial.overVars_of v 1)

namespace Ordered

theorem addTerm (hp : p.Ordered) (hm : m.OverVars) (c : Scalar) : (p.addTerm m c).Ordered :=
  ordered_iff.mpr ((ordered_iff.mp hp).addTerm Monomial.linearOn_overVars hm c)

theorem add (hp : p.Ordered) (hq : q.Ordered) : (p.add q).Ordered :=
  ordered_iff.mpr ((ordered_iff.mp hp).add Monomial.linearOn_overVars (ordered_iff.mp hq))

theorem neg (hp : p.Ordered) : p.neg.Ordered :=
  ordered_iff.mpr (ordered_iff.mp hp).neg

end Ordered

/-! ## Coefficients

A polynomial of algebra has the same terms, so its coefficients are those of the
list.  That values decide it is a theorem about infinite fields. -/

/-- The polynomial of algebra with the same terms. -/
noncomputable def toMvPolynomial (I : Reading) (p : Poly) : MvPolynomial String ℚ :=
  (p.terms.map fun t => monomial t.1.exponents (I.scalar t.2)).sum

/-- The coefficients do not depend on what the variables are read as. -/
theorem toMvPolynomial_withVars (I : Reading) (v : String → ℚ) (p : Poly) :
    p.toMvPolynomial (I.withVars v) = p.toMvPolynomial I := by
  simp only [toMvPolynomial, Reading.scalar_withVars]

/-- The value of a plain polynomial is that of the polynomial of algebra. -/
theorem Plain.eval_toMvPolynomial (hp : p.Plain d) (I : Reading) :
    eval I.var (p.toMvPolynomial I) = p.value I := by
  rw [toMvPolynomial, map_list_sum, List.map_map, value_eq_sum]
  refine congrArg List.sum (List.map_congr_left fun t ht => ?_)
  rw [Function.comp_apply, MvPolynomial.eval_monomial, (hp t ht).prod_exponents]

/-- The coefficient of a monomial is what the list has for it. -/
theorem Ordered.coeff_toMvPolynomial (ho : p.Ordered) (hp : p.Plain d) (hm : m.Plain d')
    (I : Reading) : coeff m.exponents (p.toMvPolynomial I) =
      ((Assoc.find? m p.terms).map I.scalar).getD 0 := by
  classical
  rw [← Monomial.linearOn_overVars.sum_ite_key ho.overVars ho.sorted hm.isVar I.scalar,
    toMvPolynomial]
  show MvPolynomial.coeffAddMonoidHom m.exponents _ = _
  rw [map_list_sum, List.map_map]
  refine congrArg List.sum (List.map_congr_left fun t ht => ?_)
  have hiff : t.1.exponents = m.exponents ↔ t.1 = m :=
    ⟨(hp t ht).eq_of_exponents hm, fun h => h ▸ rfl⟩
  show coeff m.exponents (monomial t.1.exponents (I.scalar t.2)) = _
  rw [MvPolynomial.coeff_monomial]
  simp only [hiff]

/-- What the list has for a monomial is its coefficient, unless that is zero. -/
theorem Ordered.find?_eq (ho : p.Ordered) (hp : p.Plain d) (hexact : p.Exact) (hm : m.Plain d')
    (I : Reading) : Assoc.find? m p.terms =
      if coeff m.exponents (p.toMvPolynomial I) = 0 then none
      else some (.exact (coeff m.exponents (p.toMvPolynomial I))) :=
  (ordered_iff.mp ho).find?_eq Monomial.linearOn_overVars hexact hm.isVar I.scalar_exact
    (ho.coeff_toMvPolynomial hp hm I)

/-- **The values of a polynomial in variables decide it**, whatever is fixed for
all that is no variable. -/
theorem Ordered.eq_of_value_eq (hp : p.Ordered) (hq : q.Ordered) (hpd : p.Plain d)
    (hqd : q.Plain d) (hpe : p.Exact) (hqe : q.Exact) (I : Reading)
    (h : ∀ v, p.value (I.withVars v) = q.value (I.withVars v)) : p = q := by
  have halgebra : p.toMvPolynomial I = q.toMvPolynomial I := by
    refine MvPolynomial.funext fun v => ?_
    have hvalue := h v
    rw [← hpd.eval_toMvPolynomial, ← hqd.eval_toMvPolynomial, toMvPolynomial_withVars,
      toMvPolynomial_withVars] at hvalue
    exact hvalue
  have hterms : p.terms = q.terms := by
    refine (Monomial.linearOn_overVars.mono fun m hm => Monomial.Plain.isVar hm).ext hpd hqd
      hp.sorted hq.sorted fun m hm => ?_
    rw [hp.find?_eq hpd hpe hm I, hq.find?_eq hqd hqe hm I, halgebra]
  obtain ⟨ts⟩ := p
  obtain ⟨us⟩ := q
  exact congrArg ofTerms hterms

end Poly

end CostAnalysis
