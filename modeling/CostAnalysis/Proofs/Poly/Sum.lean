import CostAnalysis.Algebra.Poly.Arithmetic
import CostAnalysis.Proofs.Assoc
import CostAnalysis.Proofs.Poly.Order
import CostAnalysis.Proofs.Reading
import Mathlib.Algebra.Ring.Hom.Defs
import Mathlib.Tactic.Ring

/-!
# Values of sums

A polynomial is *exact* if none of its coefficients is the mark of an overflow.
The mark absorbs, so a sum is exact only if its operands are, and then its value
is the sum of theirs.

**Totals.**  The value under a reading is only one of the ways to add up a
polynomial.  An `Evaluation` is any of them: it takes numbers, the mark and
monomials to a commutative ring.  The operations on polynomials are those of the
ring (`Evaluation.add_of_exact`, `Evaluation.mul_of_exact`), as long as the
products of the monomials at hand are.

**Values.**  `Poly.Denotes p I q` says that `p` has the value `q` or is not
exact, as `Scalar.Denotes` does for scalars.  The operations on polynomials keep
it, with nothing to be shown about an overflow on the way.
-/

namespace CostAnalysis

namespace Poly

variable {p q : Poly}

/-- No coefficient is the mark of an overflow. -/
def Exact (p : Poly) : Prop :=
  ∀ t ∈ p.terms, t.2.isOverflow = false

/-- The empty sum is exact. -/
theorem exact_zero : zero.Exact := by
  intro t ht
  cases ht

/-- A polynomial that holds no mark at all is exact. -/
theorem exact_of_hasOverflow (h : p.hasOverflow = false) : p.Exact := by
  obtain ⟨ts⟩ := p
  change Monomial.anyOverflow ts = false at h
  induction ts with
  | nil => exact exact_zero
  | cons t ts ih =>
      rw [Monomial.anyOverflow, Bool.or_eq_false_iff, Bool.or_eq_false_iff] at h
      exact List.forall_mem_cons.mpr ⟨h.1.1, ih h.2⟩

/-- A constant is the empty sum or its only term is that of the empty
product. -/
theorem terms_of_asConstant? {c : Scalar} (h : p.asConstant? = some c) :
    p.terms = [] ∧ c = 0 ∨ p.terms = [(.one, c)] := by
  rw [asConstant?] at h
  split at h
  · next hterms => exact Or.inl ⟨hterms, (Option.some.inj h).symm⟩
  · next m d hterms =>
      obtain ⟨hone, hd⟩ := Option.ite_none_right_eq_some.mp h
      obtain ⟨fs⟩ := m
      obtain rfl : fs = [] := List.isEmpty_iff.mp hone
      rw [hterms, Option.some.inj hd]
      exact Or.inr rfl
  · cases h

/-- A constant other than the mark holds none. -/
theorem hasOverflow_of_asConstant? {x : ℚ} (h : p.asConstant? = some (.exact x)) :
    p.hasOverflow = false := by
  obtain ⟨ts⟩ := p
  rcases terms_of_asConstant? h with ⟨hterms, -⟩ | hterms
  · obtain rfl : ts = [] := hterms
    rfl
  · obtain rfl : ts = [(.one, .exact x)] := hterms
    rfl

/-- The constant that an exact polynomial is, is no mark. -/
theorem exact_iff_of_asConstant? {c : Scalar} (hc : p.asConstant? = some c) :
    p.Exact ↔ c.isOverflow = false := by
  rcases terms_of_asConstant? hc with ⟨hterms, rfl⟩ | hterms
  · rw [Exact, hterms]
    exact iff_of_true nofun rfl
  · rw [Exact, hterms, List.forall_mem_singleton]

/-- A single term is exact only if its coefficient is. -/
theorem exact_term {c : Scalar} {m : Monomial} (h : (term c m).Exact) :
    c.isOverflow = false := by
  cases c with
  | exact q => rfl
  | overflow => exact h (m, .overflow) (by simp [term, terms])

/-- The same of an entry of a list, which is not stored if it is zero. -/
theorem exact_entry {m : Monomial} {c : Scalar}
    (h : ∀ t ∈ Assoc.entry m (if c.isZero then none else some c), t.2.isOverflow = false) :
    c.isOverflow = false := by
  cases c with
  | exact q => rfl
  | overflow => exact h (m, .overflow) (by simp)

/-- A write to a polynomial replaces the coefficient of one monomial, zero if
there is none, by its sum with `c`. -/
theorem addTerm_cut (p : Poly) (m : Monomial) (c : Scalar) :
    ∃ before old? after, p.terms = before ++ Assoc.entry m old? ++ after ∧
      (p.addTerm m c).terms = before ++ Assoc.entry m
        (if (old?.getD 0 + c).isZero then none else some (old?.getD 0 + c)) ++ after := by
  obtain ⟨before, old?, after, hterms, -, -, halter⟩ :=
    Assoc.alter_cut m (fun m' h => (Monomial.eq_of_cmp m m' h).symm) p.terms
  exact ⟨before, old?, after, hterms, halter _⟩

/-! ## The monomials of a result

Which monomials a result has does not depend on coefficients at all.  So a
property of monomials is kept by sums, and by products if it is kept by products
of monomials. -/

/-- Every monomial has the property. -/
def Over (K : Monomial → Prop) (p : Poly) : Prop :=
  ∀ t ∈ p.terms, K t.1

namespace Over

variable {K : Monomial → Prop}

/-- The empty sum has no monomials. -/
theorem zero (K : Monomial → Prop) : Poly.zero.Over K := by
  intro t ht
  cases ht

/-- A single term has one at most. -/
theorem term (c : Scalar) {m : Monomial} (hm : K m) : (Poly.term c m).Over K := by
  intro t ht
  by_cases hc : c.isZero = true
  · rw [Poly.term, if_pos hc] at ht
    cases ht
  · rw [Poly.term, if_neg hc] at ht
    obtain rfl := List.mem_singleton.mp ht
    exact hm

/-- One more term brings in its own monomial only. -/
theorem addTerm (hp : p.Over K) {m : Monomial} (hm : K m) (c : Scalar) :
    (p.addTerm m c).Over K := by
  obtain ⟨before, old?, after, hterms, hnew⟩ := addTerm_cut p m c
  intro t ht
  rw [hnew, List.append_assoc, List.mem_append, List.mem_append] at ht
  rcases ht with ht | ht | ht
  · exact hp t (by rw [hterms]; simp [ht])
  · split at ht
    · cases ht
    · obtain rfl := List.mem_singleton.mp ht
      exact hm
  · exact hp t (by rw [hterms]; simp [ht])

/-- A sum has the monomials of its summands. -/
theorem add (hp : p.Over K) (hq : q.Over K) : (p.add q).Over K := by
  obtain ⟨ts⟩ := q
  simp only [Poly.add, terms]
  induction ts generalizing p with
  | nil => exact hp
  | cons t ts ih =>
      obtain ⟨ht, hts⟩ := List.forall_mem_cons.mp hq
      exact ih (hp.addTerm ht t.2) hts

theorem neg (hp : p.Over K) : p.neg.Over K :=
  List.forall_mem_map.mpr fun t ht => hp t ht

theorem sub (hp : p.Over K) (hq : q.Over K) : (p.sub q).Over K :=
  hp.add hq.neg

/-- Scaling keeps them. -/
theorem scale (hp : p.Over K) (c : Scalar) : (p.scale c).Over K := by
  rw [Poly.scale]
  split
  · exact zero K
  · exact List.forall_mem_map.mpr fun t ht => hp t ht

/-- **Products**: every monomial is a product of two.  The property may be
another one for each factor, since bounds on degrees add up. -/
theorem mul {L M : Monomial → Prop} (hp : p.Over K) (hq : q.Over L)
    (hmul : ∀ m n, K m → L n → M (m.mul n)) : (p.mul q).Over M := by
  obtain ⟨ts⟩ := p
  obtain ⟨us⟩ := q
  -- the inner loop adds the products of one term, the outer one goes through
  -- the terms
  have hinner : ∀ t ∈ ts, ∀ acc : Poly, acc.Over M →
      (us.foldl (fun acc u => acc.add (Poly.term (t.2 * u.2) (t.1.mul u.1))) acc).Over M := by
    intro t ht
    induction us with
    | nil => exact fun acc hacc => hacc
    | cons u us ih =>
        intro acc hacc
        obtain ⟨hu, hus⟩ := List.forall_mem_cons.mp hq
        exact ih hus _ (hacc.add (term _ (hmul _ _ (hp t ht) hu)))
  have houter : ∀ acc : Poly, acc.Over M →
      (ts.foldl (fun acc t => us.foldl
        (fun acc u => acc.add (Poly.term (t.2 * u.2) (t.1.mul u.1))) acc) acc).Over M := by
    clear hp
    induction ts with
    | nil => exact fun acc hacc => hacc
    | cons t ts ih =>
        intro acc hacc
        obtain ⟨ht, hts⟩ := List.forall_mem_cons.mp hinner
        exact ih hts _ (ht acc hacc)
  exact houter Poly.zero (zero M)

end Over

end Poly

/-! ## Totals

A total is a linear function of the terms, and this is all that the ring
operations need.  So the lemmas are proved once, for any commutative ring in
which coefficients and monomials are read, with values and Laurent polynomials
as the two rings of interest. -/

/-- What numbers, the mark of an overflow and monomials count as when a
polynomial is added up in a commutative ring. -/
structure Evaluation (R : Type u) [CommRing R] where
  number : ℚ →+* R
  overflow : R
  monomial : Monomial → R

namespace Evaluation

open CostAnalysis.Poly

variable {R : Type u} [CommRing R] (E : Evaluation R) {p q : Poly} {c d : Scalar} {m : Monomial}

/-- What a scalar counts as. -/
def scalar : Scalar → R
  | .exact q => E.number q
  | .overflow => E.overflow

/-- A number counts as what it is mapped to. -/
@[simp] theorem scalar_exact (q : ℚ) : E.scalar (.exact q) = E.number q := rfl

theorem scalar_zero : E.scalar 0 = 0 := E.number.map_zero

theorem scalar_of_isZero (h : c.isZero = true) : E.scalar c = 0 := by
  cases c with
  | exact q => rw [(Scalar.isZero_exact q).mp h, scalar_exact, map_zero]
  | overflow => cases h

/-- Sums of scalars are those of the ring, if they do not overflow. -/
theorem scalar_add (h : (c + d).isOverflow = false) :
    E.scalar (c + d) = E.scalar c + E.scalar d := by
  rcases Scalar.add_cases c d with hsum | ⟨p, q, rfl, rfl, hsum⟩
  · rw [hsum] at h
    cases h
  · rw [hsum]
    exact E.number.map_add p q

theorem scalar_mul (h : (c * d).isOverflow = false) :
    E.scalar (c * d) = E.scalar c * E.scalar d := by
  rcases Scalar.mul_cases c d with hprod | ⟨p, q, rfl, rfl, hprod⟩
  · rw [hprod] at h
    cases h
  · rw [hprod]
    exact E.number.map_mul p q

theorem scalar_neg (h : (-c).isOverflow = false) : E.scalar (-c) = -E.scalar c := by
  rcases Scalar.neg_cases c with hneg | ⟨p, rfl, hneg⟩
  · rw [hneg] at h
    cases h
  · rw [hneg]
    exact E.number.map_neg p

/-- What a polynomial adds up to. -/
def total (p : Poly) : R :=
  (p.terms.map fun t => E.scalar t.2 * E.monomial t.1).sum

/-- The empty sum adds up to zero. -/
@[simp] theorem total_zero : E.total zero = 0 := rfl

theorem total_cons (t : Monomial × Scalar) (ts : List (Monomial × Scalar)) :
    E.total (ofTerms (t :: ts)) = E.scalar t.2 * E.monomial t.1 + E.total (ofTerms ts) :=
  List.sum_cons

/-- The total of a single term, whether or not its coefficient is zero. -/
@[simp] theorem total_term (c : Scalar) (m : Monomial) :
    E.total (term c m) = E.scalar c * E.monomial m := by
  by_cases hc : c.isZero = true
  · rw [term, if_pos hc, total_zero, E.scalar_of_isZero hc, zero_mul]
  · rw [term, if_neg hc, total_cons]
    exact add_zero _

/-- What the cut of a write contributes to the total: the new coefficient, also
where it is zero and the entry is left out. -/
theorem sum_entry (m : Monomial) (c : Scalar) :
    ((Assoc.entry m (if c.isZero then none else some c)).map
      fun t => E.scalar t.2 * E.monomial t.1).sum = E.scalar c * E.monomial m := by
  by_cases hc : c.isZero = true
  · simp [hc, E.scalar_of_isZero hc]
  · simp [hc]

/-- **One term more.**  A sum with a term is exact only if both are, and has the
sum of the totals. -/
theorem addTerm_of_exact (h : (p.addTerm m c).Exact) :
    p.Exact ∧ c.isOverflow = false ∧
      E.total (p.addTerm m c) = E.total p + E.scalar c * E.monomial m := by
  obtain ⟨before, old?, after, hterms, hnew⟩ := addTerm_cut p m c
  -- the new coefficient is one of the sum, and it could not be exact if the old
  -- one were not
  have htotal : (old?.getD 0 + c).isOverflow = false :=
    exact_entry (m := m) fun t ht => h t (by rw [hnew]; simp [ht])
  obtain ⟨hold, hc⟩ := Scalar.isOverflow_add htotal
  refine ⟨fun t ht => ?_, hc, ?_⟩
  · rw [hterms, List.append_assoc, List.mem_append, List.mem_append] at ht
    rcases ht with ht | ht | ht
    · exact h t (by rw [hnew]; simp [ht])
    · cases old? with
      | none => cases ht
      | some d =>
          obtain rfl := List.mem_singleton.mp ht
          exact hold
    · exact h t (by rw [hnew]; simp [ht])
  · have hsum : ((Assoc.entry m old?).map fun t => E.scalar t.2 * E.monomial t.1).sum =
        E.scalar (old?.getD 0) * E.monomial m := by
      cases old? <;> simp [E.scalar_zero]
    rw [total, total, hnew, hterms]
    simp only [List.map_append, List.sum_append, sum_entry, hsum, E.scalar_add htotal]
    ring

/-- A sum is exact only if both operands are, and has the sum of their
totals. -/
theorem add_of_exact (h : (p.add q).Exact) :
    p.Exact ∧ q.Exact ∧ E.total (p.add q) = E.total p + E.total q := by
  obtain ⟨ts⟩ := q
  simp only [add, terms] at h ⊢
  induction ts generalizing p with
  | nil => exact ⟨h, exact_zero, (add_zero _).symm⟩
  | cons t ts ih =>
      obtain ⟨hsum, hrest, htotal⟩ := ih h
      obtain ⟨hp, hc, hadd⟩ := E.addTerm_of_exact hsum
      refine ⟨hp, List.forall_mem_cons.mpr ⟨hc, hrest⟩, ?_⟩
      rw [List.foldl_cons, htotal, hadd, total_cons]
      ring

/-- An opposite is exact only if its operand is, and has the opposite total. -/
theorem neg_of_exact (h : p.neg.Exact) : p.Exact ∧ E.total p.neg = -E.total p := by
  obtain ⟨ts⟩ := p
  have hts : ∀ t ∈ ts, (-t.2).isOverflow = false := fun t ht =>
    h (t.1, -t.2) (List.mem_map_of_mem ht)
  refine ⟨fun t ht => Scalar.isOverflow_neg (hts t ht), ?_⟩
  show E.total (ofTerms (ts.map fun t => (t.1, -t.2))) = _
  clear h
  induction ts with
  | nil => exact neg_zero.symm
  | cons t ts ih =>
      have ih := ih fun t ht => hts t (List.mem_cons_of_mem _ ht)
      rw [List.map_cons, total_cons, total_cons, ih, E.scalar_neg (hts t List.mem_cons_self)]
      ring

/-- A multiple by a factor other than zero is exact only if the polynomial is,
and so is the factor unless the polynomial is zero. -/
theorem scale_of_exact (h : (p.scale c).Exact) :
    (c.isZero = false → p.Exact) ∧ E.total (p.scale c) = E.scalar c * E.total p := by
  by_cases hc : c.isZero = true
  · refine ⟨fun hc' => absurd hc (by simp [hc']), ?_⟩
    rw [scale, if_pos hc, E.scalar_of_isZero hc, zero_mul, total_zero]
  · obtain ⟨ts⟩ := p
    rw [scale, if_neg hc] at h ⊢
    have hts : ∀ t ∈ ts, (t.2 * c).isOverflow = false := fun t ht =>
      h (t.1, t.2 * c) (List.mem_map_of_mem ht)
    refine ⟨fun _ t ht => (Scalar.isOverflow_mul (hts t ht)).1, ?_⟩
    show E.total (ofTerms (ts.map fun t => (t.1, t.2 * c))) = _
    clear h
    induction ts with
    | nil => exact (mul_zero _).symm
    | cons t ts ih =>
        have ih := ih fun t ht => hts t (List.mem_cons_of_mem _ ht)
        rw [List.map_cons, total_cons, total_cons, ih, E.scalar_mul (hts t List.mem_cons_self)]
        ring

/-- The products of one term with the terms of a list, added to a polynomial. -/
theorem mulTerm_of_exact {us : List (Monomial × Scalar)} {acc : Poly}
    (hmul : ∀ u ∈ us, E.monomial (m.mul u.1) = E.monomial m * E.monomial u.1)
    (h : (us.foldl (fun acc u => acc.add (term (c * u.2) (m.mul u.1))) acc).Exact) :
    acc.Exact ∧ (∀ u ∈ us, (c * u.2).isOverflow = false) ∧
      E.total (us.foldl (fun acc u => acc.add (term (c * u.2) (m.mul u.1))) acc) =
        E.total acc + E.scalar c * E.monomial m * E.total (ofTerms us) := by
  induction us generalizing acc with
  | nil => exact ⟨h, nofun, (add_eq_left.mpr (mul_zero _)).symm⟩
  | cons u us ih =>
      obtain ⟨hu, hus⟩ := List.forall_mem_cons.mp hmul
      obtain ⟨hsum, hrest, htotal⟩ := ih hus h
      obtain ⟨hacc, hterm, hadd⟩ := E.add_of_exact hsum
      have hcu : (c * u.2).isOverflow = false := exact_term hterm
      refine ⟨hacc, List.forall_mem_cons.mpr ⟨hcu, hrest⟩, ?_⟩
      rw [List.foldl_cons, htotal, hadd, total_term, E.scalar_mul hcu, hu, total_cons]
      ring

/-- **Products.**  An exact product has the product of the totals, and each of
its operands is exact unless the other one is the empty sum. -/
theorem mul_of_exact
    (hmul : ∀ t ∈ p.terms, ∀ u ∈ q.terms,
      E.monomial (t.1.mul u.1) = E.monomial t.1 * E.monomial u.1)
    (h : (p.mul q).Exact) :
    (∀ t ∈ p.terms, ∀ u ∈ q.terms, (t.2 * u.2).isOverflow = false) ∧
      E.total (p.mul q) = E.total p * E.total q := by
  obtain ⟨ts⟩ := p
  obtain ⟨us⟩ := q
  simp only [terms] at hmul
  -- the outer loop adds to a polynomial that may hold earlier terms already
  have hloop : ∀ acc : Poly,
      (ts.foldl (fun acc t => us.foldl
        (fun acc u => acc.add (term (t.2 * u.2) (t.1.mul u.1))) acc) acc).Exact →
      acc.Exact ∧ (∀ t ∈ ts, ∀ u ∈ us, (t.2 * u.2).isOverflow = false) ∧
      E.total (ts.foldl (fun acc t => us.foldl
        (fun acc u => acc.add (term (t.2 * u.2) (t.1.mul u.1))) acc) acc) =
        E.total acc + E.total (ofTerms ts) * E.total (ofTerms us) := by
    clear h
    induction ts with
    | nil =>
        exact fun acc h => ⟨h, List.forall_mem_nil _, (add_eq_left.mpr (zero_mul _)).symm⟩
    | cons t ts ih =>
        intro acc h
        obtain ⟨ht, hts⟩ := List.forall_mem_cons.mp hmul
        obtain ⟨hstep, hrest, htotal⟩ := ih hts _ h
        obtain ⟨hacc, hfirst, hadd⟩ := E.mulTerm_of_exact ht hstep
        refine ⟨hacc, List.forall_mem_cons.mpr ⟨hfirst, hrest⟩, ?_⟩
        rw [List.foldl_cons, htotal, hadd, total_cons]
        ring
  obtain ⟨-, hexact, htotal⟩ := hloop zero h
  exact ⟨hexact, by rw [total_zero, zero_add] at htotal; exact htotal⟩

/-! ## What a polynomial gives -/

/-- The polynomial has the given total, unless a coefficient overflowed. -/
def Gives (p : Poly) (x : R) : Prop :=
  p.Exact → E.total p = x

namespace Gives

variable {E} {x y : R}

theorem zero : E.Gives Poly.zero 0 := fun _ => rfl

/-- A sum gives the sum.  If the sum is exact both operands are, which is where
the mark must absorb. -/
theorem add (hp : E.Gives p x) (hq : E.Gives q y) : E.Gives (p.add q) (x + y) := by
  intro h
  obtain ⟨hpe, hqe, htotal⟩ := E.add_of_exact h
  rw [htotal, hp hpe, hq hqe]

theorem neg (hp : E.Gives p x) : E.Gives p.neg (-x) := by
  intro h
  obtain ⟨hpe, htotal⟩ := E.neg_of_exact h
  rw [htotal, hp hpe]

/-- A multiple gives the multiple.  A term whose coefficient becomes zero is
dropped, and adds zero.
-/
theorem scale (hp : E.Gives p x) {a : ℚ} (hc : c.Denotes a) :
    E.Gives (p.scale c) (E.number a * x) := by
  intro h
  obtain ⟨hexact, htotal⟩ := E.scale_of_exact h
  rcases hc with rfl | rfl
  · rw [htotal, scalar_exact]
    by_cases ha : a = 0
    · rw [ha, map_zero, zero_mul, zero_mul]
    · rw [hp (hexact (Scalar.isZero_exact_of_ne ha))]
  · -- nothing but the empty sum has an exact multiple by the mark
    obtain ⟨ts⟩ := p
    cases ts with
    | nil =>
        have hx : 0 = x := hp exact_zero
        rw [htotal, ← hx, mul_zero]
        exact mul_zero _
    | cons t ts =>
        have ht := h (t.1, t.2 * .overflow) List.mem_cons_self
        exact absurd (Scalar.isOverflow_mul ht).2 (by decide)

/-- A product gives the product, if those of the monomials at hand do. -/
theorem mul (hp : E.Gives p x) (hq : E.Gives q y)
    (hmul : ∀ t ∈ p.terms, ∀ u ∈ q.terms,
      E.monomial (t.1.mul u.1) = E.monomial t.1 * E.monomial u.1) :
    E.Gives (p.mul q) (x * y) := by
  intro h
  obtain ⟨hexact, htotal⟩ := E.mul_of_exact hmul h
  obtain ⟨ts⟩ := p
  obtain ⟨us⟩ := q
  -- an operand may have overflowed only beside an empty one, and then both
  -- sides are zero
  cases ts with
  | nil =>
      have hx : 0 = x := hp exact_zero
      rw [htotal, ← hx, zero_mul]
      exact zero_mul _
  | cons t ts =>
      cases us with
      | nil =>
          have hy : 0 = y := hq exact_zero
          rw [htotal, ← hy, mul_zero]
          exact mul_zero _
      | cons u us =>
          rw [htotal, hp fun t' ht' =>
              (Scalar.isOverflow_mul (hexact t' ht' u List.mem_cons_self)).1,
            hq fun u' hu' =>
              (Scalar.isOverflow_mul (hexact t List.mem_cons_self u' hu')).2]

end Gives

end Evaluation

/-! ## Values -/

/-- The values under a reading. -/
def Reading.evaluation (I : Reading) : Evaluation ℚ where
  number := RingHom.id ℚ
  overflow := I.overflow
  monomial := Monomial.value I

namespace Poly

variable {I : Reading} {p q : Poly}

theorem scalar_evaluation (I : Reading) (c : Scalar) : I.evaluation.scalar c = I.scalar c := by
  cases c <;> rfl

theorem total_evaluation (I : Reading) (p : Poly) : I.evaluation.total p = p.value I := by
  simp only [value_eq_sum, Evaluation.total, scalar_evaluation]
  rfl

/-- The empty sum is worth zero. -/
@[simp] theorem value_zero (I : Reading) : zero.value I = 0 := rfl

/-- The value of a single term, whether or not its coefficient is zero. -/
@[simp] theorem value_term (I : Reading) (c : Scalar) (m : Monomial) :
    (term c m).value I = I.scalar c * m.value I := by
  rw [← total_evaluation, Evaluation.total_term, scalar_evaluation]
  rfl

/-- The polynomial has the given value, unless a coefficient overflowed. -/
def Denotes (p : Poly) (I : Reading) (q : ℚ) : Prop :=
  p.Exact → p.value I = q

theorem denotes_iff {x : ℚ} : p.Denotes I x ↔ I.evaluation.Gives p x := by
  rw [Denotes, Evaluation.Gives, total_evaluation]

namespace Denotes

variable {x y : ℚ}

theorem zero (I : Reading) : Poly.zero.Denotes I 0 := fun _ => rfl

/-- A single term has the value of its coefficient times that of its
monomial. -/
theorem term (I : Reading) {c : Scalar} (hc : c.Denotes x) (m : Monomial) :
    (Poly.term c m).Denotes I (x * m.value I) := by
  intro h
  rw [value_term, hc.eq_exact (exact_term h), I.scalar_exact]

theorem add (hp : p.Denotes I x) (hq : q.Denotes I y) : (p.add q).Denotes I (x + y) :=
  denotes_iff.mpr ((denotes_iff.mp hp).add (denotes_iff.mp hq))

theorem neg (hp : p.Denotes I x) : p.neg.Denotes I (-x) :=
  denotes_iff.mpr (denotes_iff.mp hp).neg

theorem sub (hp : p.Denotes I x) (hq : q.Denotes I y) : (p.sub q).Denotes I (x - y) := by
  rw [sub_eq_add_neg]
  exact hp.add hq.neg

theorem scale (hp : p.Denotes I x) {c : Scalar} {a : ℚ} (hc : c.Denotes a) :
    (p.scale c).Denotes I (a * x) :=
  denotes_iff.mpr ((denotes_iff.mp hp).scale hc)

theorem mul (hp : p.Denotes I x) (hq : q.Denotes I y)
    (hmul : ∀ t ∈ p.terms, ∀ u ∈ q.terms, (t.1.mul u.1).value I = t.1.value I * u.1.value I) :
    (p.mul q).Denotes I (x * y) :=
  denotes_iff.mpr ((denotes_iff.mp hp).mul (denotes_iff.mp hq) hmul)

end Denotes

end Poly

end CostAnalysis
