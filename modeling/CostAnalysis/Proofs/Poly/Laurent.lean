import CostAnalysis.Proofs.Poly.Uniqueness
import CostAnalysis.Proofs.Word
import Mathlib.Algebra.MonoidAlgebra.Basic
import Mathlib.Algebra.Order.BigOperators.Group.List

/-!
# Polynomials over atoms as Laurent polynomials

Whatever the atoms are, a polynomial over them is one in the sense of algebra:
an element of the ring of Laurent polynomials over ℚ with the atoms as variables
(`Poly.laurent`).  This module says when the operations on lists are those of
that ring, and when its elements decide the lists.

**Exponents.**  They are clamped to 64-bit words, so a product is that of the
ring as long as the exponents do not outgrow a word.  The `magnitude` of a
monomial, the sum of their absolute values, bounds them all, and magnitudes add
up in products.

**Order.**  The order of all atoms need not be transitive, since scalars whose
cross products outgrow a word are compared by rounded quotients.  It is followed
by the lists over atoms of some class `K` on which it is linear
(`Poly.ListedOver`), and there the ring decides them: exact polynomials with the
same element are equal (`Poly.ListedOver.eq_of_laurent`).

`Poly.Stands K B x p` collects what the ring operations keep.
-/

namespace CostAnalysis

open Numeric

/-- Laurent polynomials over the rationals, with the atoms as variables. -/
abbrev Laurent : Type := AddMonoidAlgebra ℚ (Atom →₀ ℤ)

/-! ## The order of monomials -/

/-- **The order of monomials is lexicographic**, so it is linear over atoms on
which theirs is. -/
theorem Monomial.linearOn {K : Atom → Prop} (h : Assoc.LinearOn K) :
    Assoc.LinearOn fun m : Monomial => ∀ f ∈ m.factors, K f.1 := by
  classical
  -- the atoms of the class are their own keys, and `none` is the key of the
  -- others
  let _ : Ord {a // K a} := ⟨fun a b => compare a.1 b.1⟩
  have hswap : ∀ a b : {a // K a}, compare a b = (compare b a).swap := by
    intro a b
    show compare a.1 b.1 = (compare b.1 a.1).swap
    cases hab : compare a.1 b.1 with
    | eq =>
        rw [h.eq_of_eq hab, h.compare_self a.2]
        rfl
    | gt =>
        rw [h.lt_of_gt a.2 b.2 hab]
        rfl
    | lt =>
        cases hba : compare b.1 a.1 with
        | gt => rfl
        | eq =>
            rw [h.eq_of_eq hba] at hab
            exact absurd hab (h.irrefl b.2)
        | lt => exact absurd (h.lt_trans a.2 b.2 a.2 hab hba) (h.irrefl a.2)
  have : Std.TransOrd {a // K a} :=
    { eq_swap := hswap _ _
      isLE_trans := by
        intro a b c hab hbc
        rw [Ordering.isLE_iff_eq_lt_or_eq_eq] at hab hbc ⊢
        rcases hab with hab | hab
        · rcases hbc with hbc | hbc
          · exact Or.inl (h.lt_trans a.2 b.2 c.2 hab hbc)
          · rw [Subtype.ext (h.eq_of_eq hbc)]
            exact Or.inl hab
        · rw [← Subtype.ext (h.eq_of_eq hab)]
          exact hbc }
  let key : Atom → Option {a // K a} := fun a => if ha : K a then some ⟨a, ha⟩ else none
  have hkey : ∀ a b, K a → K b → a.cmp b = compare (key a) (key b) := by
    intro a b ha hb
    simp only [key, dif_pos ha, dif_pos hb]
    rfl
  exact Monomial.linearOn_of_key hkey

/-! ## Monomials

The exponents of a monomial are a function on atoms with finite support.  A
write changes it at one atom, and what is written is what the ring has there, as
long as nothing is clamped. -/

namespace Monomial

variable {K : Atom → Prop} {m n : Monomial} {a : Atom} {e : ℤ}

/-- The exponents of the atoms. -/
noncomputable def powers (m : Monomial) : Atom →₀ ℤ :=
  (m.factors.map fun f => Finsupp.single f.1 f.2).sum

/-- The sum of the absolute values of the exponents. -/
def magnitude (m : Monomial) : ℕ :=
  (m.factors.map fun f => f.2.natAbs).sum

/-- Powers of atoms of the class in their order, with no exponent zero. -/
structure Listed (K : Atom → Prop) (m : Monomial) : Prop where
  keys : ∀ f ∈ m.factors, K f.1
  sorted : Assoc.Sorted m.factors
  ne_zero : ∀ f ∈ m.factors, f.2 ≠ 0

theorem listed_one (K : Atom → Prop) : one.Listed K :=
  ⟨nofun, List.Pairwise.nil, nofun⟩

theorem listed_of (ha : K a) (e : ℤ) : (of a e).Listed K := by
  rw [of]
  split
  · exact listed_one K
  · next he => exact ⟨by simpa [factors] using ha, List.pairwise_singleton _ _,
      by simpa [factors] using he⟩

/-- What a write contributes to the exponents: the new one, also where it is
zero and the entry is left out. -/
theorem sum_single_entry (a : Atom) (e : ℤ) :
    ((Assoc.entry a (if e = 0 then none else some e)).map fun f => Finsupp.single f.1 f.2).sum =
      Finsupp.single a e := by
  by_cases he : e = 0
  · simp [he]
  · simp [he]

/-- An exponent that is stored, or is zero and is not, counts with its absolute
value. -/
theorem sum_natAbs_entry (a : Atom) (e : ℤ) :
    ((Assoc.entry a (if e = 0 then none else some e)).map fun f => f.2.natAbs).sum = e.natAbs := by
  by_cases he : e = 0
  · simp [he]
  · simp [he]

/-- **One factor more.**  Below the bound the exponents add up. -/
theorem powers_mulFactor (he : m.magnitude + e.natAbs < 2 ^ 63) :
    (m.mulFactor a e).powers = m.powers + Finsupp.single a e ∧
      (m.mulFactor a e).magnitude ≤ m.magnitude + e.natAbs := by
  obtain ⟨fs⟩ := m
  obtain ⟨before, old?, after, hfactors, -, -, halter⟩ :=
    Assoc.alter_cut a (fun b h => (Atom.eq_of_cmp a b h).symm) fs
  have hpower : ((Assoc.entry a old?).map fun f => Finsupp.single f.1 f.2).sum =
      Finsupp.single a (old?.getD 0) := by
    cases old? <;> simp
  have habs : ((Assoc.entry a old?).map fun f => f.2.natAbs).sum = (old?.getD 0).natAbs := by
    cases old? <;> simp
  -- the old exponent is a part of the magnitude, so that the new one is not
  -- clamped
  have hmagnitude : (ofFactors fs).magnitude = (before.map fun f => f.2.natAbs).sum +
      (old?.getD 0).natAbs + (after.map fun f => f.2.natAbs).sum := by
    simp only [magnitude, factors, hfactors, List.map_append, List.sum_append, habs]
  have htotal : saturate 64 (old?.getD 0 + e) = old?.getD 0 + e :=
    saturate_of_fitsSigned (fitsSigned_iff.mpr (by omega))
  have hnew : (ofFactors fs).mulFactor a e = ofFactors (before ++ Assoc.entry a
      (if old?.getD 0 + e = 0 then none else some (old?.getD 0 + e)) ++ after) := by
    rw [mulFactor, factors, halter, htotal]
  constructor
  · rw [hnew]
    simp only [powers, factors, hfactors, List.map_append, List.sum_append, hpower,
      sum_single_entry, Finsupp.single_add]
    abel
  · rw [hnew, hmagnitude]
    simp only [magnitude, factors, List.map_append, List.sum_append, sum_natAbs_entry]
    omega

theorem powers_cons (f : Atom × ℤ) (fs : List (Atom × ℤ)) :
    (ofFactors (f :: fs)).powers = Finsupp.single f.1 f.2 + (ofFactors fs).powers :=
  List.sum_cons

theorem magnitude_cons (f : Atom × ℤ) (fs : List (Atom × ℤ)) :
    (ofFactors (f :: fs)).magnitude = f.2.natAbs + (ofFactors fs).magnitude :=
  List.sum_cons

/-- **Products.**  Below the bound the exponents add up. -/
theorem powers_mul (h : m.magnitude + n.magnitude < 2 ^ 63) :
    (m.mul n).powers = m.powers + n.powers ∧
      (m.mul n).magnitude ≤ m.magnitude + n.magnitude := by
  obtain ⟨fs⟩ := n
  induction fs generalizing m with
  | nil => exact ⟨(add_zero _).symm, le_rfl⟩
  | cons f fs ih =>
      rw [magnitude_cons] at h ⊢
      obtain ⟨hpowers, hmagnitude⟩ := powers_mulFactor (m := m) (a := f.1) (e := f.2) (by omega)
      obtain ⟨hall, hle⟩ := ih (m := m.mulFactor f.1 f.2) (by omega)
      have hstep : m.mul (ofFactors (f :: fs)) = (m.mulFactor f.1 f.2).mul (ofFactors fs) := rfl
      rw [hstep]
      exact ⟨by rw [hall, hpowers, powers_cons, add_assoc], by omega⟩

namespace Listed

variable (h : Assoc.LinearOn K)
include h

/-- Merging a factor keeps the order. -/
theorem mulFactor (hm : m.Listed K) (ha : K a) (e : ℤ) : (m.mulFactor a e).Listed K where
  keys := h.keys_alter hm.keys ha _
  sorted := h.sorted_alter hm.keys hm.sorted ha _
  ne_zero f hf := by
    rcases Assoc.mem_alter (fun b hb => (Atom.eq_of_cmp a b hb).symm) hf with hf | ⟨-, old?, hnew⟩
    · exact hm.ne_zero f hf
    · obtain ⟨hzero, htotal⟩ := Option.ite_none_left_eq_some.mp hnew
      rwa [← Option.some.inj htotal]

theorem mul (hm : m.Listed K) (hn : n.Listed K) : (m.mul n).Listed K := by
  rw [Monomial.mul]
  exact List.foldlRecOn n.factors _ hm fun acc hacc f hf => mulFactor h hacc (hn.keys f hf) f.2

/-- An atom is a factor just where its exponent is not zero. -/
theorem find?_eq (hm : m.Listed K) (ha : K a) : Assoc.find? a m.factors =
    if m.powers a = 0 then none else some (m.powers a) := by
  classical
  have hpower : m.powers a = ((Assoc.find? a m.factors).map id).getD 0 := by
    rw [← h.sum_ite_key hm.keys hm.sorted ha id, powers, ← Finsupp.applyAddHom_apply,
      map_list_sum, List.map_map]
    refine congrArg List.sum (List.map_congr_left fun f _ => ?_)
    simp only [Function.comp_apply, Finsupp.applyAddHom_apply, Finsupp.single_apply, id]
  rw [hpower, Option.map_id_fun, id]
  cases hfind : Assoc.find? a m.factors with
  | none => rfl
  | some e =>
      have hmem := (h.find?_eq_some_iff hm.keys hm.sorted ha).mp hfind
      exact (if_neg (hm.ne_zero _ hmem)).symm

/-- **A listed monomial is decided by its exponents.** -/
theorem eq_of_powers (hm : m.Listed K) (hn : n.Listed K) (hpowers : m.powers = n.powers) :
    m = n := by
  have hfactors : m.factors = n.factors := by
    refine h.ext hm.keys hn.keys hm.sorted hn.sorted fun a ha => ?_
    rw [find?_eq h hm ha, find?_eq h hn ha, hpowers]
  obtain ⟨fs⟩ := m
  obtain ⟨gs⟩ := n
  exact congrArg ofFactors hfactors

end Listed

/-- Monomials over the class are in a linear order, as they are compared by
their lists. -/
theorem linearOn_listed (h : Assoc.LinearOn K) : Assoc.LinearOn (Listed K) :=
  (linearOn h).mono fun _ hm => hm.keys

end Monomial

/-! ## Polynomials -/

/-- The number that a scalar is; the mark of an overflow counts as zero. -/
def Scalar.rational : Scalar → ℚ
  | .exact q => q
  | .overflow => 0

namespace Laurent

/-- Evaluation in the ring of Laurent polynomials. -/
noncomputable def evaluation : Evaluation Laurent where
  number := AddMonoidAlgebra.singleZeroRingHom
  overflow := 0
  monomial m := AddMonoidAlgebra.single m.powers 1

/-- A term is the element with its coefficient at its powers. -/
theorem evaluation_term (c : Scalar) (m : Monomial) :
    evaluation.scalar c * evaluation.monomial m = AddMonoidAlgebra.single m.powers c.rational := by
  cases c with
  | exact q =>
      show AddMonoidAlgebra.single 0 q * AddMonoidAlgebra.single m.powers 1 = _
      rw [AddMonoidAlgebra.single_mul_single, zero_add, mul_one]
      rfl
  | overflow =>
      show 0 * AddMonoidAlgebra.single m.powers 1 = AddMonoidAlgebra.single m.powers 0
      rw [zero_mul, AddMonoidAlgebra.single_zero]

/-- The coefficient of a product of powers. -/
noncomputable def coefficient (powers : Atom →₀ ℤ) : Laurent →+ ℚ :=
  (Finsupp.applyAddHom powers).comp AddMonoidAlgebra.coeffAddEquiv.toAddMonoidHom

theorem coefficient_single [DecidableEq (Atom →₀ ℤ)] (powers powers' : Atom →₀ ℤ) (q : ℚ) :
    coefficient powers (AddMonoidAlgebra.single powers' q) = if powers' = powers then q else 0 :=
  Finsupp.single_apply

end Laurent

namespace Poly

variable {K : Atom → Prop} {p q : Poly} {m : Monomial} {c : Scalar}

/-- The Laurent polynomial that a polynomial stands for. -/
noncomputable def laurent (p : Poly) : Laurent :=
  Laurent.evaluation.total p

/-- The greatest of the magnitudes of the monomials. -/
def magnitude (p : Poly) : ℕ :=
  (p.terms.map fun t => t.1.magnitude).foldr Nat.max 0

/-- The magnitude of a polynomial bounds those of its monomials. -/
theorem magnitude_le_iff {B : ℕ} : p.magnitude ≤ B ↔ p.Over fun m => m.magnitude ≤ B := by
  obtain ⟨ts⟩ := p
  simp only [magnitude, Over, terms]
  induction ts with
  | nil => simp
  | cons t ts ih =>
      rw [List.map_cons, List.foldr_cons, Nat.max_le, ih, List.forall_mem_cons]

/-- Listed over listed monomials. -/
abbrev ListedOver (K : Atom → Prop) (p : Poly) : Prop :=
  p.Listed (Monomial.Listed K)

theorem listedOver_constant (K : Atom → Prop) (c : Scalar) : (constant c).ListedOver K :=
  listed_term c (Monomial.listed_one K)

theorem listedOver_ofAtom {a : Atom} (ha : K a) : (ofAtom a).ListedOver K :=
  listed_term 1 (Monomial.listed_of ha 1)

namespace ListedOver

variable (h : Assoc.LinearOn K)
include h

/-- The coefficient of a monomial is what the list has for it. -/
theorem coefficient_laurent (hp : p.ListedOver K) (hm : m.Listed K) :
    Laurent.coefficient m.powers p.laurent =
      ((Assoc.find? m p.terms).map Scalar.rational).getD 0 := by
  classical
  rw [← (Monomial.linearOn_listed h).sum_ite_key hp.monomials hp.sorted hm, laurent,
    Evaluation.total, map_list_sum, List.map_map]
  refine congrArg List.sum (List.map_congr_left fun t ht => ?_)
  have hiff : t.1.powers = m.powers ↔ t.1 = m :=
    ⟨(hp.monomials t ht).eq_of_powers h hm, fun heq => heq ▸ rfl⟩
  rw [Function.comp_apply, Laurent.evaluation_term, Laurent.coefficient_single]
  simp only [hiff]

/-- **Laurent polynomials decide lists.** -/
theorem eq_of_laurent (hp : p.ListedOver K) (hq : q.ListedOver K) (hpe : p.Exact) (hqe : q.Exact)
    (hlaurent : p.laurent = q.laurent) : p = q := by
  have hlinear := Monomial.linearOn_listed h
  have hrational : ∀ x : ℚ, Scalar.rational (.exact x) = x := fun _ => rfl
  have hterms : p.terms = q.terms := by
    refine hlinear.ext hp.monomials hq.monomials hp.sorted hq.sorted fun m hm => ?_
    rw [hp.find?_eq hlinear hpe hm hrational (coefficient_laurent h hp hm),
      hq.find?_eq hlinear hqe hm hrational (coefficient_laurent h hq hm), hlaurent]
  obtain ⟨ts⟩ := p
  obtain ⟨us⟩ := q
  exact congrArg ofTerms hterms

end ListedOver

/-! ## What the ring operations keep -/

/-- The polynomial is listed, its magnitude is at most `B`, and it stands for
`x` unless a coefficient overflowed. -/
structure Stands (K : Atom → Prop) (B : ℕ) (x : Laurent) (p : Poly) : Prop where
  listed : p.ListedOver K
  magnitude_le : p.magnitude ≤ B
  gives : Laurent.evaluation.Gives p x

namespace Stands

variable {B B' : ℕ} {x y : Laurent}

theorem zero (K : Atom → Prop) (B : ℕ) : Poly.zero.Stands K B 0 :=
  ⟨listed_zero _, Nat.zero_le B, .zero⟩

theorem mono (hp : p.Stands K B x) (hB : B ≤ B') : p.Stands K B' x :=
  ⟨hp.listed, hp.magnitude_le.trans hB, hp.gives⟩

/-- A number stands for itself. -/
theorem constant (K : Atom → Prop) (q : ℚ) (B : ℕ) :
    (Poly.constant (.exact q)).Stands K B (Laurent.evaluation.number q) where
  listed := listedOver_constant K _
  magnitude_le := magnitude_le_iff.mpr (.term _ (Nat.zero_le B))
  gives _ := by
    rw [Poly.constant, Evaluation.total_term]
    exact mul_one _

theorem one (K : Atom → Prop) (B : ℕ) : Poly.one.Stands K B 1 :=
  constant K 1 B

theorem neg (hp : p.Stands K B x) : p.neg.Stands K B (-x) :=
  ⟨hp.listed.neg, magnitude_le_iff.mpr (magnitude_le_iff.mp hp.magnitude_le).neg, hp.gives.neg⟩

variable (h : Assoc.LinearOn K)
include h

theorem add (hp : p.Stands K B x) (hq : q.Stands K B y) : (p.add q).Stands K B (x + y) :=
  ⟨hp.listed.add (Monomial.linearOn_listed h) hq.listed,
    magnitude_le_iff.mpr
      ((magnitude_le_iff.mp hp.magnitude_le).add (magnitude_le_iff.mp hq.magnitude_le)),
    hp.gives.add hq.gives⟩

/-- Exponents may only be multiplied as long as none of them can be clamped. -/
theorem mul (hp : p.Stands K B x) (hq : q.Stands K B' y) (hB : B + B' < 2 ^ 63) :
    (p.mul q).Stands K (B + B') (x * y) := by
  have hmp := magnitude_le_iff.mp hp.magnitude_le
  have hmq := magnitude_le_iff.mp hq.magnitude_le
  refine ⟨hp.listed.mul (Monomial.linearOn_listed h) (.mul h) hq.listed, magnitude_le_iff.mpr ?_,
    hp.gives.mul hq.gives ?_⟩
  · exact hmp.mul hmq fun m n hm hn =>
      (Monomial.powers_mul (by omega)).2.trans (Nat.add_le_add hm hn)
  · intro t ht u hu
    have ht := hmp t ht
    have hu := hmq u hu
    show AddMonoidAlgebra.single (t.1.mul u.1).powers 1 =
      AddMonoidAlgebra.single t.1.powers 1 * AddMonoidAlgebra.single u.1.powers (1 : ℚ)
    rw [AddMonoidAlgebra.single_mul_single, mul_one, (Monomial.powers_mul (by omega)).1]

/-- Exact polynomials that stand for the same are equal. -/
theorem eq (hp : p.Stands K B x) (hq : q.Stands K B' x) (hpe : p.Exact) (hqe : q.Exact) : p = q :=
  ListedOver.eq_of_laurent h hp.listed hq.listed hpe hqe ((hp.gives hpe).trans (hq.gives hqe).symm)

end Stands

end Poly

end CostAnalysis
