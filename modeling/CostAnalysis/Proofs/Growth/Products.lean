import CostAnalysis.Proofs.Growth.Weights
import Mathlib.Tactic.Ring

/-!
# Classes of products

The total degree of a product of monomials is the sum of their total degrees,
and so it is with the total power of logarithms (`Growth.totals_mul`).

**Equal atoms merge.**  The product has one factor for an atom of both
monomials, with the sum of the exponents, so that the weights of the product are
the sums of those of both only where the class of a power is linear in its
exponent.  For extrema it is not: the class of a minimum or maximum is read off
its arguments whatever the exponent is, so that each power has the class of the
extremum itself.  An extremum that is a factor of both monomials is counted once
in the product, and the statement leaves it out.

**Weights.**  A total is a weighted sum over the factors, with the degree of
each atom as its weight.  A product writes the factors of one monomial into the
list of the other, and each write adds its weight (`Monomial.weigh_mulFactor`).
-/

namespace CostAnalysis

open Numeric

/-- Multiplication by a power of one atom adds its weight. -/
theorem Monomial.weigh_mulFactor (D : Atom → ℚ) (m : Monomial) {a : Atom} {e : ℤ}
    (he : fitsSigned 64 e = true)
    (hmerged : ∀ old, (a, old) ∈ m.factors → fitsSigned 64 (old + e) = true)
    (hextremum : a.isExtremum = true → e ≠ 0 ∧ ∀ old, (a, old) ∉ m.factors) :
    Atom.weigh D (m.mulFactor a e).factors = Atom.weigh D m.factors + a.share e * D a := by
  obtain ⟨before, old?, after, hfactors, -, -, halter⟩ :=
    Assoc.alter_cut a (fun a' h => (Atom.eq_of_cmp a a' h).symm) m.factors
  -- only the entry that is written changes, and its share is linear in the
  -- exponent
  have hwritten : Atom.weigh D (Assoc.entry a (let total := saturate 64 (old?.getD 0 + e)
      if total = 0 then none else some total)) =
      Atom.weigh D (Assoc.entry a old?) + a.share e * D a := by
    cases old? with
    | none =>
        simp only [Option.getD_none, zero_add, saturate_of_fitsSigned he]
        by_cases hzero : e = 0
        · -- only an extremum would count with the exponent zero
          have hshare : a.share e = 0 := by
            cases hkind : a.isExtremum with
            | true => exact absurd hzero (hextremum hkind).1
            | false => simp [Atom.share, hkind, hzero]
          rw [if_pos hzero, hshare, zero_mul, add_zero]
        · simp [hzero]
    | some old =>
        have hmem : (a, old) ∈ m.factors := by simp [hfactors]
        have hlinear : ∀ z : ℤ, a.share z = z := by
          intro z
          cases hkind : a.isExtremum with
          | true => exact absurd hmem ((hextremum hkind).2 old)
          | false => simp [Atom.share, hkind]
        have hsum : a.share old * D a + a.share e * D a = a.share (old + e) * D a := by
          rw [hlinear, hlinear, hlinear, Int.cast_add, add_mul]
        simp only [Option.getD_some, saturate_of_fitsSigned (hmerged old hmem), Assoc.entry_some,
          Atom.weigh_cons, Atom.weigh_nil, add_zero, hsum]
        by_cases hzero : old + e = 0
        · simp [hzero, hlinear]
        · simp [hzero]
  show Atom.weigh D (Assoc.alter a _ m.factors) = _
  rw [halter, hfactors, Atom.weigh_append, Atom.weigh_append, hwritten, Atom.weigh_append,
    Atom.weigh_append]
  ring

/-- **The weights of a product of monomials**, where no exponent is clamped and
no extremum is a factor of both. -/
theorem Monomial.weigh_mul (D : Atom → ℚ) {a b : Monomial}
    (hatoms : (b.factors.map Prod.fst).Nodup)
    (hexponents : ∀ f ∈ b.factors, fitsSigned 64 f.2 = true ∧
      ∀ e, (f.1, e) ∈ a.factors → fitsSigned 64 (e + f.2) = true)
    (hextrema : ∀ f ∈ b.factors, f.1.isExtremum = true → f.2 ≠ 0 ∧ ∀ e, (f.1, e) ∉ a.factors) :
    Atom.weigh D (a.mul b).factors = Atom.weigh D a.factors + Atom.weigh D b.factors := by
  obtain ⟨fs⟩ := b
  show Atom.weigh D (fs.foldl _ a).factors = _ + Atom.weigh D fs
  change (fs.map Prod.fst).Nodup at hatoms
  change ∀ f ∈ fs, _ at hexponents
  change ∀ f ∈ fs, _ at hextrema
  induction fs generalizing a with
  | nil => exact (add_zero _).symm
  | cons f fs ih =>
      obtain ⟨hnew, hatoms⟩ := List.nodup_cons.mp hatoms
      obtain ⟨hf, hfs⟩ := List.forall_mem_cons.mp hexponents
      obtain ⟨hf', hfs'⟩ := List.forall_mem_cons.mp hextrema
      -- what is multiplied to later factors was there before
      have hkept : ∀ g ∈ fs, ∀ e, (g.1, e) ∈ (a.mulFactor f.1 f.2).factors →
          (g.1, e) ∈ a.factors := by
        intro g hg e hmem
        have hlater : g.1 ∈ fs.map Prod.fst := List.mem_map_of_mem hg
        refine Assoc.mem_of_mem_alter (fun a' h => (Atom.eq_of_cmp _ a' h).symm) hmem ?_
        rintro heq
        exact hnew (heq ▸ hlater)
      rw [List.foldl_cons, ih hatoms
        (fun g hg => ⟨(hfs g hg).1, fun e he => (hfs g hg).2 e (hkept g hg e he)⟩)
        (fun g hg hkind => ⟨(hfs' g hg hkind).1, fun e he =>
          (hfs' g hg hkind).2 e (hkept g hg e he)⟩),
        weigh_mulFactor D a hf.1 hf.2 hf']
      rw [Atom.weigh_cons, add_assoc]

namespace Growth

variable {vars : List String}

/-- **The totals of a product are the sums of those of its factors**, where no
scalar overflows, no exponent is clamped and no minimum or maximum is a factor
of both. -/
theorem totals_mul {a b : Monomial} (hatoms : (b.factors.map Prod.fst).Nodup)
    (hexponents : ∀ f ∈ b.factors, fitsSigned 64 f.2 = true ∧
      ∀ e, (f.1, e) ∈ a.factors → fitsSigned 64 (e + f.2) = true)
    (hextrema : ∀ f ∈ b.factors, f.1.isExtremum = true → f.2 ≠ 0 ∧ ∀ e, (f.1, e) ∉ a.factors) :
    let g := ofMonomial vars a
    let h := ofMonomial vars b
    let gh := ofMonomial vars (a.mul b)
    (gh.degree.isOverflow = false → (g.degree + h.degree).isOverflow = false →
      gh.degree = g.degree + h.degree) ∧
    (gh.logCount.isOverflow = false → (g.logCount + h.logCount).isOverflow = false →
      gh.logCount = g.logCount + h.logCount) := by
  obtain ⟨D, L, hweighs⟩ := exists_weighs_ofMonomial (fun _ => 1) vars
  have hproduct := hweighs (a.mul b)
  rw [Monomial.weigh_mul D hatoms hexponents hextrema,
    Monomial.weigh_mul L hatoms hexponents hextrema] at hproduct
  refine ⟨fun hdegree hsum => ?_, fun hcount hsum => ?_⟩
  · rw [hproduct.degree.eq_exact hdegree,
      ((hweighs a).degree.add (hweighs b).degree).eq_exact hsum]
  · rw [hproduct.logCount.eq_exact hcount,
      ((hweighs a).logCount.add (hweighs b).logCount).eq_exact hsum]

/-- The greater one of `n` and its square. -/
def greaterPower : Atom :=
  .max (Poly.var "n") (Poly.term 1 (.of (.var "n") 2))

/-- `n ^ 2 · log n · max (n, n ^ 2)` times `n ^ 3 · log n ^ 2 · n ^ (1/2)`. -/
theorem totals_mul_merged :
    let a := Monomial.ofFactors [(.var "n", 2), (.log (Poly.var "n"), 1), (greaterPower, 1)]
    let b := Monomial.ofFactors
      [(.var "n", 3), (.log (Poly.var "n"), 2), (.power (Poly.var "n") .half, 1)]
    (ofMonomial ["n"] a).degree = 4 ∧ (ofMonomial ["n"] b).degree = .exact (7 / 2) ∧
      (ofMonomial ["n"] (a.mul b)).degree = .exact (15 / 2) ∧
      (ofMonomial ["n"] (a.mul b)).logCount = 3 := by
  intro a b
  have hatoms : (b.factors.map Prod.fst).Nodup := by simp [b, Monomial.factors]
  have hexponents : ∀ f ∈ b.factors, fitsSigned 64 f.2 = true ∧
      ∀ e, (f.1, e) ∈ a.factors → fitsSigned 64 (e + f.2) = true := by
    simp [a, b, Monomial.factors, greaterPower]
    decide
  have hextrema : ∀ f ∈ b.factors, f.1.isExtremum = true → f.2 ≠ 0 ∧ ∀ e, (f.1, e) ∉ a.factors := by
    simp [b, Monomial.factors, Atom.isExtremum]
  have htotals := @totals_mul ["n"] a b hatoms hexponents hextrema
  have ha : (ofMonomial ["n"] a).degree = 4 := by decide +kernel
  have hb : (ofMonomial ["n"] b).degree = .exact (7 / 2) := by decide +kernel
  refine ⟨ha, hb, ?_, ?_⟩
  · rw [htotals.1 (by decide +kernel) (by decide +kernel)]
    decide +kernel
  · rw [htotals.2 (by decide +kernel) (by decide +kernel)]
    decide +kernel

/-- The square of an extremum has the class of the extremum, of total degree two
and not four. -/
theorem totals_mul_extremum :
    let m := Monomial.of greaterPower 1
    m.hasOpaque = false ∧ m.mul m = .of greaterPower 2 ∧
      (ofMonomial ["n"] m).degree + (ofMonomial ["n"] m).degree = 4 ∧
      (ofMonomial ["n"] (m.mul m)).degree = 2 ∧
      (ofMonomial ["n"] (m.mul m)).degree ≠
        (ofMonomial ["n"] m).degree + (ofMonomial ["n"] m).degree := by
  intro m
  have hmul : m.mul m = .of greaterPower 2 := rfl
  have hsum : (ofMonomial ["n"] m).degree + (ofMonomial ["n"] m).degree = 4 := by decide +kernel
  have hproduct : (ofMonomial ["n"] (m.mul m)).degree = 2 := by decide +kernel
  refine ⟨by decide +kernel, hmul, hsum, hproduct, ?_⟩
  rw [hsum, hproduct]
  decide

end Growth

end CostAnalysis
