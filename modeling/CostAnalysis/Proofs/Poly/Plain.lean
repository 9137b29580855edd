import CostAnalysis.Proofs.Poly.Sum
import Mathlib.Algebra.GroupWithZero.Basic
import Mathlib.Algebra.Order.BigOperators.Group.List

/-!
# Products of plain polynomials

A monomial is *plain* if it is a product of positive powers of variables,
written in the order of their names.  Exponents are clamped to 64-bit words, so
a product has the product of the values only as long as the exponents stay below
`2 ^ 63`; a plain monomial therefore carries a bound on its total degree, and
degrees add up in products.

`Poly.Represents S d p f` collects what the operations on polynomials keep: `p`
is plain of degree at most `d`, and under the readings in `S` its value is that
of `f` unless a coefficient overflowed.  The second half is a conditional on
purpose.  An overflow inside a product is forgotten where the other factor is
the empty sum, and the product is still right then.

**A bound, not a degree.**  The degree of a plain monomial is at most `d`, so
that `d` can be raised where two bounds have to agree, as in a sum.  It is only
compared with the size of a word at the places where exponents are added.
-/

namespace CostAnalysis

open Numeric

/-! ## Variables as keys -/

/-- The atom is a variable. -/
def Atom.IsVar (a : Atom) : Prop :=
  ∃ v, a = .var v

@[simp] theorem Atom.isVar_var (v : String) : (Atom.var v).IsVar := ⟨v, rfl⟩

theorem Atom.compare_var (v w : String) : compare (Atom.var v) (.var w) = compare v w := rfl

namespace Atom.IsVar

variable {a b c : Atom}

/-- The order of names is transitive. -/
theorem lt_trans (ha : a.IsVar) (hb : b.IsVar) (hc : c.IsVar) (hab : compare a b = .lt)
    (hbc : compare b c = .lt) : compare a c = .lt := by
  obtain ⟨u, rfl⟩ := ha
  obtain ⟨v, rfl⟩ := hb
  obtain ⟨w, rfl⟩ := hc
  rw [compare_var] at hab hbc ⊢
  exact Std.TransCmp.lt_trans hab hbc

theorem lt_of_gt (ha : a.IsVar) (hb : b.IsVar) (h : compare a b = .gt) : compare b a = .lt := by
  obtain ⟨u, rfl⟩ := ha
  obtain ⟨v, rfl⟩ := hb
  rw [compare_var] at h ⊢
  exact Std.OrientedCmp.lt_of_gt h

/-- The order of variables tells different ones apart. -/
theorem ne_of_lt (ha : a.IsVar) (h : compare a b = .lt) : a ≠ b := by
  obtain ⟨u, rfl⟩ := ha
  rintro rfl
  rw [compare_var] at h
  simp at h

end Atom.IsVar

/-- **Variables are in a linear order**, that of their names, whatever holds of
other atoms. -/
theorem Atom.linearOn_isVar : Assoc.LinearOn Atom.IsVar where
  eq_of_eq h := (Atom.eq_of_cmp _ _ h).symm
  lt_of_gt ha hb := ha.lt_of_gt hb
  lt_trans ha hb hc := ha.lt_trans hb hc
  irrefl ha h := ha.ne_of_lt h rfl

/-! ## Plain monomials

A factor is merged at its place in the order of names.  The three parts of the
list, before it, at it and behind it, are plain by themselves, which is how a
write is dealt with. -/

/-- Positive powers of variables in the order of their names, of total degree at
most `d`. -/
structure Monomial.Plain (d : ℕ) (m : Monomial) : Prop where
  isVar : ∀ f ∈ m.factors, f.1.IsVar
  positive : ∀ f ∈ m.factors, 0 < f.2
  sorted : m.factors.Pairwise fun f g => compare f.1 g.1 = .lt
  degree_le : (m.factors.map Prod.snd).sum ≤ d

namespace Monomial

variable {m n : Monomial} {d d' : ℕ}

/-- The empty product is plain. -/
theorem plain_one (d : ℕ) : one.Plain d where
  isVar f hf := by cases hf
  positive f hf := by cases hf
  sorted := List.Pairwise.nil
  degree_le := by simp [one, factors]

/-- A positive power is plain, of its exponent as degree. -/
theorem plain_of (v : String) {e : ℤ} (he : 0 < e) (hd : e ≤ d) : (of (.var v) e).Plain d := by
  rw [of, if_neg he.ne']
  exact ⟨by simp [factors], by simpa [factors] using he, by simp [factors],
    by simpa [factors] using hd⟩

theorem Plain.mono (hm : m.Plain d) (h : d ≤ d') : m.Plain d' :=
  ⟨hm.isVar, hm.positive, hm.sorted, hm.degree_le.trans (by exact_mod_cast h)⟩

/-- The empty product is worth one. -/
@[simp] theorem value_one (I : Reading) : one.value I = 1 := rfl

/-- A power is worth the power of the value of its base. -/
@[simp] theorem value_of (I : Reading) (a : Atom) (e : ℤ) : (of a e).value I = a.value I ^ e := by
  by_cases he : e = 0
  · simp [of, he]
  · simp [of, he, value_eq_prod, factors]

/-- **The place of a variable.**  The factors of a plain monomial are those
before a variable, its own power if it has one, and those after it; a write
changes the power alone. -/
theorem Plain.cut (hm : m.Plain d) (v : String) :
    ∃ before old? after, m.factors = before ++ Assoc.entry (.var v) old? ++ after ∧
      (∀ f ∈ before, compare f.1 (.var v) = .lt) ∧ (∀ f ∈ after, compare (.var v) f.1 = .lt) ∧
      ∀ f, Assoc.alter (.var v) f m.factors = before ++ Assoc.entry (.var v) (f old?) ++ after :=
  Atom.linearOn_isVar.cut hm.isVar hm.sorted (Atom.isVar_var v)

/-- Factors around a variable, with any positive power of it between them, make
a plain monomial. -/
theorem plain_around {before after : List (Atom × ℤ)} {v : String} {e : ℤ}
    (hm : (ofFactors (before ++ after)).Plain d)
    (hbefore : ∀ f ∈ before, compare f.1 (.var v) = .lt)
    (hafter : ∀ f ∈ after, compare (.var v) f.1 = .lt) (he : 0 < e) :
    (ofFactors (before ++ (.var v, e) :: after)).Plain (d + e.toNat) := by
  obtain ⟨hvar, hpos, hsorted, hdeg⟩ := hm
  simp only [factors] at hvar hpos hsorted hdeg
  rw [List.pairwise_append] at hsorted
  refine ⟨fun f hf => ?_, fun f hf => ?_, ?_, ?_⟩
  · rcases List.mem_append.mp hf with hf | hf
    · exact hvar f (by simp [hf])
    · rcases List.mem_cons.mp hf with rfl | hf
      · exact Atom.isVar_var v
      · exact hvar f (by simp [hf])
  · rcases List.mem_append.mp hf with hf | hf
    · exact hpos f (by simp [hf])
    · rcases List.mem_cons.mp hf with rfl | hf
      · exact he
      · exact hpos f (by simp [hf])
  · refine List.pairwise_append.mpr
      ⟨hsorted.1, List.pairwise_cons.mpr ⟨hafter, hsorted.2.1⟩, fun f hf g hg => ?_⟩
    rcases List.mem_cons.mp hg with rfl | hg
    · exact hbefore f hf
    · exact hsorted.2.2 f hf g hg
  -- the degree is the sum of the exponents
  · simp only [factors, List.map_append, List.sum_append, List.map_cons, List.sum_cons] at hdeg ⊢
    push_cast
    omega

/-- Leaving out the power of a variable keeps a monomial plain and lowers its
degree. -/
theorem plain_without {before after : List (Atom × ℤ)} {a : Atom} {old? : Option ℤ}
    (hm : (ofFactors (before ++ Assoc.entry a old? ++ after)).Plain d) :
    0 ≤ old?.getD 0 ∧ (old?.getD 0).toNat ≤ d ∧
      (ofFactors (before ++ after)).Plain (d - (old?.getD 0).toNat) := by
  obtain ⟨hvar, hpos, hsorted, hdeg⟩ := hm
  simp only [factors] at hvar hpos hsorted hdeg
  have hsub : (before ++ after).Sublist (before ++ Assoc.entry a old? ++ after) := by simp
  -- exponents are positive, so no part of the monomial has a negative degree
  have hsum : ∀ l : List (Atom × ℤ), l.Sublist (before ++ Assoc.entry a old? ++ after) →
      0 ≤ (l.map Prod.snd).sum := fun l hl =>
    List.sum_nonneg (List.forall_mem_map.mpr fun f hf => (hpos f (hl.subset hf)).le)
  have hbefore := hsum before (by simp)
  have hafter := hsum after (by simp)
  have hentry : ((Assoc.entry a old?).map Prod.snd).sum = old?.getD 0 := by
    cases old? <;> simp
  have hold := hsum (Assoc.entry a old?) (by simp)
  simp only [List.map_append, List.sum_append, hentry] at hdeg hold
  refine ⟨hold, by omega, fun f hf => hvar f (hsub.subset hf), fun f hf => hpos f (hsub.subset hf),
    hsorted.sublist hsub, ?_⟩
  simp only [factors, List.map_append, List.sum_append]
  omega

/-- What the cut of a write contributes to the value: the power of its key. -/
theorem prod_entry (I : Reading) (a : Atom) (e? : Option ℤ) :
    ((Assoc.entry a e?).map fun f => f.1.value I ^ f.2).prod = a.value I ^ e?.getD 0 := by
  cases e? <;> simp

/-- **One factor more.**  The exponent of one variable grows, and the others
stay. -/
theorem Plain.mulFactor (hm : m.Plain d) (v : String) {e : ℕ} (he : 0 < e) (hd : d + e < 2 ^ 63) :
    (m.mulFactor (.var v) e).Plain (d + e) ∧
      ∀ I, (m.mulFactor (.var v) e).value I = m.value I * I.var v ^ e := by
  obtain ⟨before, old?, after, hfactors, hbefore, hafter, halter⟩ := hm.cut v
  obtain ⟨fs⟩ := m
  obtain rfl : fs = _ := hfactors
  obtain ⟨hold, hle, hrest⟩ := plain_without hm
  -- the bound on the degree keeps the new exponent from being clamped
  have htotal : saturate 64 (old?.getD 0 + e) = old?.getD 0 + e :=
    saturate_of_fitsSigned (fitsSigned_iff.mpr (by omega))
  have hne : old?.getD 0 + (e : ℤ) ≠ 0 := by omega
  have hnew : (ofFactors (before ++ Assoc.entry (.var v) old? ++ after)).mulFactor (.var v) e =
      ofFactors (before ++ (.var v, old?.getD 0 + (e : ℤ)) :: after) := by
    rw [Monomial.mulFactor, halter, htotal, if_neg hne]
    simp
  refine ⟨?_, fun I => ?_⟩
  · rw [hnew]
    exact (plain_around hrest hbefore hafter (by omega)).mono (by omega)
  · rw [hnew, value_eq_prod, value_eq_prod]
    simp only [factors, List.map_append, List.prod_append, List.map_cons, List.prod_cons,
      prod_entry, Atom.value]
    rw [zpow_add' (Or.inr (Or.inl hne)), zpow_natCast]
    ring

/-- The product of plain monomials is plain, the degrees add up, and so do the
values multiply. -/
theorem Plain.mul (hm : m.Plain d) (hn : n.Plain d') (hd : d + d' < 2 ^ 63) :
    (m.mul n).Plain (d + d') ∧ ∀ I, (m.mul n).value I = m.value I * n.value I := by
  obtain ⟨fs⟩ := n
  obtain ⟨hvar, hpos, -, hdeg⟩ := hn
  simp only [Monomial.mul, factors] at hvar hpos hdeg ⊢
  induction fs generalizing m d d' with
  | nil => exact ⟨hm.mono (by omega), fun I => by simp [value_eq_prod, factors]⟩
  | cons f fs ih =>
      obtain ⟨a, e⟩ := f
      obtain ⟨⟨v, rfl⟩, hvars⟩ := List.forall_mem_cons.mp hvar
      obtain ⟨he, hposs⟩ := List.forall_mem_cons.mp hpos
      simp only at he
      -- exponents are positive, so the degree that is left bounds the rest of
      -- the factors
      lift e to ℕ using he.le
      simp only [List.map_cons, List.sum_cons] at hdeg
      have hrest : 0 ≤ (fs.map Prod.snd).sum :=
        List.sum_nonneg (List.forall_mem_map.mpr fun f hf => (hposs f hf).le)
      obtain ⟨hfirst, hvalue⟩ := hm.mulFactor v (by exact_mod_cast he)
        (show d + e < 2 ^ 63 by omega)
      obtain ⟨hall, hvalues⟩ := ih hfirst (show d + e + (d' - e) < 2 ^ 63 by omega) hvars hposs
        (by omega)
      refine ⟨hall.mono (by omega), fun I => ?_⟩
      rw [List.foldl_cons, hvalues, hvalue, value_eq_prod I (ofFactors (_ :: fs)),
        value_eq_prod I (ofFactors fs)]
      simp only [factors, List.map_cons, List.prod_cons, Atom.value, zpow_natCast]
      ring

end Monomial

/-! ## Plain polynomials -/

/-- Every monomial is plain of degree at most `d`. -/
def Poly.Plain (d : ℕ) (p : Poly) : Prop :=
  ∀ t ∈ p.terms, t.1.Plain d

namespace Poly

variable {p q : Poly} {d d' : ℕ}

theorem plain_zero (d : ℕ) : zero.Plain d := Over.zero _

theorem plain_term (c : Scalar) {m : Monomial} (hm : m.Plain d) : (term c m).Plain d :=
  Over.term c hm

theorem Plain.mono (hp : p.Plain d) (h : d ≤ d') : p.Plain d' :=
  fun t ht => (hp t ht).mono h

theorem Plain.add (hp : p.Plain d) (hq : q.Plain d) : (p.add q).Plain d := Over.add hp hq

theorem Plain.neg (hp : p.Plain d) : p.neg.Plain d := Over.neg hp

theorem Plain.scale (hp : p.Plain d) (c : Scalar) : (p.scale c).Plain d := Over.scale hp c

theorem Plain.mul (hp : p.Plain d) (hq : q.Plain d') (hd : d + d' < 2 ^ 63) :
    (p.mul q).Plain (d + d') :=
  Over.mul hp hq fun _ _ hm hn => (hm.mul hn hd).1

/-! ## What the operations keep -/

/-- The polynomial is plain of degree at most `d` and, unless a coefficient
overflowed, stands for `f` under the readings in `S`. -/
structure Represents (S : Set Reading) (d : ℕ) (p : Poly) (f : Reading → ℚ) : Prop where
  plain : p.Plain d
  value_eq : ∀ I ∈ S, p.Exact → p.value I = f I

variable {S T : Set Reading} {f g : Reading → ℚ}

theorem represents_zero (S : Set Reading) (d : ℕ) : zero.Represents S d fun _ => 0 :=
  ⟨plain_zero d, fun _ _ _ => rfl⟩

theorem represents_term (S : Set Reading) (c : Scalar) {m : Monomial} (hm : m.Plain d) :
    (term c m).Represents S d fun I => I.scalar c * m.value I :=
  ⟨plain_term c hm, fun I _ _ => value_term I c m⟩

/-- A constant stands for itself. -/
theorem represents_constant (S : Set Reading) (c : Scalar) (d : ℕ) :
    (constant c).Represents S d fun I => I.scalar c := by
  have h := represents_term S c (Monomial.plain_one d)
  simp only [Monomial.value_one, mul_one] at h
  exact h

theorem represents_one (S : Set Reading) (d : ℕ) : one.Represents S d fun _ => 1 :=
  represents_constant S 1 d

theorem represents_var (S : Set Reading) (v : String) :
    (var v).Represents S 1 fun I => I.var v := by
  have h := represents_term S 1 (Monomial.plain_of v Int.one_pos (d := 1) (by simp))
  simp only [Reading.scalar_one, one_mul, Monomial.value_of, zpow_one, Atom.value] at h
  exact h

namespace Represents

theorem mono (hp : p.Represents S d f) (h : d ≤ d') : p.Represents S d' f :=
  ⟨hp.plain.mono h, hp.value_eq⟩

theorem subset (hp : p.Represents S d f) (h : T ⊆ S) : p.Represents T d f :=
  ⟨hp.plain, fun I hI => hp.value_eq I (h hI)⟩

theorem congr (hp : p.Represents S d f) (h : ∀ I ∈ S, f I = g I) : p.Represents S d g :=
  ⟨hp.plain, fun I hI hexact => (hp.value_eq I hI hexact).trans (h I hI)⟩

theorem add (hp : p.Represents S d f) (hq : q.Represents S d g) :
    (p.add q).Represents S d fun I => f I + g I :=
  ⟨hp.plain.add hq.plain, fun I hI =>
    Denotes.add (hp.value_eq I hI) (hq.value_eq I hI)⟩

theorem neg (hp : p.Represents S d f) : p.neg.Represents S d fun I => -f I :=
  ⟨hp.plain.neg, fun I hI => Denotes.neg (hp.value_eq I hI)⟩

theorem sub (hp : p.Represents S d f) (hq : q.Represents S d g) :
    (p.sub q).Represents S d fun I => f I - g I :=
  ⟨hp.plain.add hq.plain.neg, fun I hI =>
    Denotes.sub (hp.value_eq I hI) (hq.value_eq I hI)⟩

theorem scale (hp : p.Represents S d f) {c : Scalar} {a : ℚ} (hc : c.Denotes a) :
    (p.scale c).Represents S d fun I => a * f I :=
  ⟨hp.plain.scale c, fun I hI => Denotes.scale (hp.value_eq I hI) hc⟩

theorem mul (hp : p.Represents S d f) (hq : q.Represents S d' g) (hd : d + d' < 2 ^ 63) :
    (p.mul q).Represents S (d + d') fun I => f I * g I :=
  ⟨hp.plain.mul hq.plain hd, fun I hI =>
    Denotes.mul (hp.value_eq I hI) (hq.value_eq I hI) fun t ht u hu =>
      ((hp.plain t ht).mul (hq.plain u hu) hd).2 I⟩

/-- **Repeated multiplication.**  The result so far has the degree `d'`, each of
the remaining `k` rounds adds `d`, and no round leaves the word. -/
theorem powFrom {acc : Poly} (hacc : acc.Represents S d' g) (hp : p.Represents S d f) (k : ℕ)
    (hd : d' + k * d < 2 ^ 63) :
    (Poly.powFrom p acc k).Represents S (d' + k * d) fun I => g I * f I ^ k := by
  induction k generalizing acc d' g with
  | zero =>
      simp only [zero_mul, add_zero, pow_zero, mul_one]
      exact hacc
  | succ k ih =>
      rw [Nat.succ_mul] at hd
      have hstep := ih (hacc.mul hp (by omega)) (by omega)
      simp only [pow_succ', ← mul_assoc]
      exact hstep.mono (by rw [Nat.succ_mul]; omega)

/-- A power is repeated multiplication from one on. -/
theorem powNat (hp : p.Represents S d f) (k : ℕ) (hd : k * d < 2 ^ 63) :
    (p.powNat k).Represents S (k * d) fun I => f I ^ k := by
  have h := (represents_one S 0).powFrom hp k (by rwa [zero_add])
  simp only [zero_add, one_mul] at h
  exact h

end Represents

end Poly

end CostAnalysis
