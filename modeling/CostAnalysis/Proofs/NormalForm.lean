import CostAnalysis.Proofs.Degradation

/-!
# The normal form

What every closed form looks like, at every depth (`Poly.isNormal`): no
coefficient is zero or the mark of an overflow, each is in lowest terms over a
positive denominator, and no factor has the exponent zero.  Equal formulas could
not be told by their closed forms without it.

**Two halves.**  That operations keep the coefficients and the exponents in
order is `Poly.Formed`, which allows the mark of an overflow because it absorbs;
that no mark is left at the end is due to the guard at every node of the
reduction.

**One place forgets the exponents.**  A power of a product outside of
`-64, ..., 64` multiplies the exponents and keeps the low word of each, and
zeros are not taken out.  So `n ^ (2 ^ 64)` is stored as `n ^ 0`, which is not
the constant one, though it reads like it (`isNormal_simplify_lostFactor`).
Wherever no power loses a factor like this, the closed form is normal
(`isNormal_simplify`).
-/

namespace CostAnalysis

/-! ## Normal polynomials

The test goes through every atom, down to the coefficients inside of exponents
and logarithms.  It is a computation, so that the closed form of a given text
can be tested by running it. -/

/-- Whether the scalar is a number other than zero, in lowest terms over a
positive denominator. -/
def Scalar.isReduced (s : Scalar) : Bool :=
  !s.isOverflow && !s.isZero && 0 < s.denom && s.numer.natAbs.gcd s.denom == 1

mutual

/-- Whether the polynomials inside the atom are normal. -/
def Atom.isNormal : Atom → Bool
  | .var _ => true
  | .log p => p.isNormal
  | .min p q => p.isNormal && q.isNormal
  | .max p q => p.isNormal && q.isNormal
  | .exp _ p => p.isNormal
  | .power p _ => p.isNormal
  | .unresolved _ => true
  | .unknown _ => true
termination_by structural a => a

/-- Whether the factors of the monomial are normal. -/
def Monomial.isNormal : Monomial → Bool
  | .ofFactors fs => Atom.allNormal fs
termination_by structural m => m

/-- Whether, at every depth, all coefficients are reduced and no factor has the
exponent zero. -/
def Poly.isNormal : Poly → Bool
  | .ofTerms ts => Monomial.allNormal ts
termination_by structural p => p

/-- Whether all factors of the list are normal, and none has the exponent
zero. -/
def Atom.allNormal : List (Atom × Int) → Bool
  | [] => true
  | (a, e) :: fs => (a.isNormal && e != 0) && Atom.allNormal fs
termination_by structural fs => fs

/-- Whether all terms of the list are normal, with reduced coefficients. -/
def Monomial.allNormal : List (Monomial × Scalar) → Bool
  | [] => true
  | (m, c) :: ts => (m.isNormal && c.isReduced) && Monomial.allNormal ts
termination_by structural ts => ts

end

/-- A coefficient that did not overflow is reduced. -/
theorem Scalar.IsCoefficient.isReduced {s : Scalar} (h : s.IsCoefficient)
    (hexact : s.isOverflow = false) : s.isReduced = true := by
  cases s with
  | exact q =>
      have hcoprime : q.num.natAbs.gcd q.den = 1 := q.reduced
      simp [Scalar.isReduced, hexact, h.ne_zero, Scalar.denom, Scalar.numer, q.den_pos, hcoprime]
  | overflow => cases hexact

mutual

theorem Atom.Formed.isNormal {fragments : Prop} :
    ∀ {a : Atom}, a.Formed fragments False → a.hasOverflow = false → a.isNormal = true
  | .var _, _, _ => rfl
  | .log _, h, hexact => Poly.Formed.isNormal h hexact
  | .min _ _, h, hexact => by
      obtain ⟨hleft, hright⟩ := Bool.or_eq_false_iff.mp hexact
      exact Bool.and_eq_true_iff.mpr
        ⟨Poly.Formed.isNormal h.1 hleft, Poly.Formed.isNormal h.2 hright⟩
  | .max _ _, h, hexact => by
      obtain ⟨hleft, hright⟩ := Bool.or_eq_false_iff.mp hexact
      exact Bool.and_eq_true_iff.mpr
        ⟨Poly.Formed.isNormal h.1 hleft, Poly.Formed.isNormal h.2 hright⟩
  | .exp _ _, h, hexact => Poly.Formed.isNormal h.2 (Bool.or_eq_false_iff.mp hexact).2
  | .power _ _, h, hexact => Poly.Formed.isNormal h (Bool.or_eq_false_iff.mp hexact).2
  | .unresolved _, _, _ => rfl
  | .unknown _, _, _ => rfl
termination_by structural a => a

theorem Monomial.Formed.isNormal {fragments : Prop} :
    ∀ {m : Monomial}, m.Formed fragments False → m.hasOverflow = false → m.isNormal = true
  | .ofFactors _, h, hexact => Atom.AllFormed.allNormal h hexact
termination_by structural m => m

/-- **The two halves together.**  A polynomial that operations kept in order is
normal if no scalar in it overflowed. -/
theorem Poly.Formed.isNormal {fragments : Prop} :
    ∀ {p : Poly}, p.Formed fragments False → p.hasOverflow = false → p.isNormal = true
  | .ofTerms _, h, hexact => Monomial.AllFormed.allNormal h hexact
termination_by structural p => p

theorem Atom.AllFormed.allNormal {fragments : Prop} :
    ∀ {fs : List (Atom × Int)}, Atom.AllFormed fragments False fs → Atom.anyOverflow fs = false →
      Atom.allNormal fs = true
  | [], _, _ => rfl
  | (_, _) :: _, h, hexact => by
      obtain ⟨hfirst, hrest⟩ := Bool.or_eq_false_iff.mp hexact
      have hne := bne_iff_ne.mpr (h.1.2 id)
      exact Bool.and_eq_true_iff.mpr ⟨Bool.and_eq_true_iff.mpr
        ⟨Atom.Formed.isNormal h.1.1 hfirst, hne⟩, Atom.AllFormed.allNormal h.2 hrest⟩
termination_by structural fs => fs

theorem Monomial.AllFormed.allNormal {fragments : Prop} :
    ∀ {ts : List (Monomial × Scalar)}, Monomial.AllFormed fragments False ts →
      Monomial.anyOverflow ts = false → Monomial.allNormal ts = true
  | [], _, _ => rfl
  | (_, _) :: _, h, hexact => by
      obtain ⟨hfirst, hrest⟩ := Bool.or_eq_false_iff.mp hexact
      obtain ⟨hcoefficient, hmonomial⟩ := Bool.or_eq_false_iff.mp hfirst
      exact Bool.and_eq_true_iff.mpr ⟨Bool.and_eq_true_iff.mpr
        ⟨Monomial.Formed.isNormal h.1.1 hmonomial, h.1.2.isReduced hcoefficient⟩,
        Monomial.AllFormed.allNormal h.2 hrest⟩
termination_by structural ts => ts

end

/-! ## Closed forms -/

namespace Formula

/-- **Closed forms are normal**, for every text that can be read, if no power in
the formula loses a factor.  Opaque fragments may occur, with or without a
note. -/
theorem isNormal_simplify {text : String} {e : Formula} (hread : read? text = some e)
    (hkeeps : e.keepsFactors = true) : e.simplify.poly.isNormal = true := by
  have hbounded : e.Bounded := Bounded.built.of_read? hread
  have hformed : e.FormedBy True False :=
    hbounded.formedBy (fun h => absurd trivial h) fun _ => hkeeps
  have hpoly := hformed e.sumDepth 0 fun h => absurd trivial h
  exact hpoly.isNormal (hasOverflow_reduce _ _ _)

/-- A geometric sum, a logarithm, a great power and a division by zero: all in
normal form. -/
theorem isNormal_simplify_summedPowers :
    ∃ e, read? "Sum(2**i/3 + log(n)**100*i, (i, 1, n)) - (m*n**2)**(201/2)/0" = some e ∧
      e.keepsFactors = true ∧ e.simplify.poly.isNormal = true := by
  obtain ⟨e, hread, hkeeps⟩ :
      ∃ e, read? "Sum(2**i/3 + log(n)**100*i, (i, 1, n)) - (m*n**2)**(201/2)/0" = some e ∧
        e.keepsFactors = true := by
    have h : ((read? "Sum(2**i/3 + log(n)**100*i, (i, 1, n)) - (m*n**2)**(201/2)/0").map
        keepsFactors) = some true := by
      decide +kernel
    exact Option.map_eq_some_iff.mp h
  exact ⟨e, hread, hkeeps, isNormal_simplify hread hkeeps⟩

/-- The power `2 ^ 64` of a variable is stored as the variable with the exponent
zero: it reads as one and is no constant. -/
theorem isNormal_simplify_lostFactor :
    ((read? "n**18446744073709551616").map fun e => (e.simplify.poly.isNormal,
      e.simplify.poly.text, e.simplify.poly.asConstant?)) = some (false, "1", none) := by
  decide +kernel

end Formula

end CostAnalysis
