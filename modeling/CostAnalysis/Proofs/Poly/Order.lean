import CostAnalysis.Algebra.Poly.Basic
import CostAnalysis.Proofs.Assoc
import CostAnalysis.Proofs.Scalar

/-!
# Keys that compare as equal are equal

Monomials are merged where their order says `eq`.  The order of scalars falls
back to rounded quotients where a cross product outgrows its word, so it is not
plain that nothing is ever merged that should not be.  It is not: the rounded
quotients only tell scalars apart, and two scalars are called equal only if
their parts are.

Whether the order is linear is another matter, since rounded quotients need not
be transitive.  It is so on atoms that are compared by keys of a linear order,
and then also on the monomials over them (`Monomial.linearOn_of_key`).

**The induction.**  Atoms hold polynomials, which hold monomials, which hold
atoms.  So the fact about polynomials is proved along with those about atoms,
monomials and the lists in them, by recursion on what stands on the left.  In
each case the comparison is lexicographic, and is equal only if each of its
parts is.
-/

namespace CostAnalysis

/-- Two numbers that compare as equal are equal.  Where the cross products fit
this is the order of rational numbers, and otherwise the parts themselves are
compared last. -/
theorem Scalar.eq_of_cmpExact {x y : ℚ} (h : Scalar.cmpExact x y = .eq) : x = y := by
  simp only [Scalar.cmpExact] at h
  split at h
  · have hcross : x.num * Int.ofNat y.den = y.num * Int.ofNat x.den :=
      Std.LawfulEqCmp.eq_of_compare h
    exact Rat.eq_iff_mul_eq_mul.mpr hcross
  · split at h
    · cases h
    · split at h
      · cases h
      · rw [Ordering.then_eq_eq] at h
        exact Rat.ext (Std.LawfulEqCmp.eq_of_compare h.1) (Std.LawfulEqCmp.eq_of_compare h.2)

/-- The same with the mark of an overflow, which is equal to itself only. -/
theorem Scalar.eq_of_cmp {x y : Scalar} (h : x.cmp y = .eq) : x = y := by
  cases x with
  | overflow =>
      cases y with
      | overflow => rfl
      | exact q => cases h
  | exact p =>
      cases y with
      | overflow => cases h
      | exact q => rw [Scalar.eq_of_cmpExact h]

mutual

/-- Atoms of different kinds never compare as equal, and those of one kind do by
what they hold. -/
theorem Atom.eq_of_cmp : ∀ (a b : Atom), a.cmp b = .eq → a = b
  | .var v, b, h => by
      cases b with
      | var w => rw [(Std.LawfulEqOrd.eq_of_compare h : v = w)]
      | _ => cases h
  | .log p, b, h => by
      cases b with
      | log q => rw [Poly.eq_of_cmp p q h]
      | _ => cases h
  | .min p q, b, h => by
      cases b with
      | min p' q' =>
          simp only [Atom.cmp, Ordering.then_eq_eq] at h
          rw [Poly.eq_of_cmp p p' h.1, Poly.eq_of_cmp q q' h.2]
      | _ => cases h
  | .max p q, b, h => by
      cases b with
      | max p' q' =>
          simp only [Atom.cmp, Ordering.then_eq_eq] at h
          rw [Poly.eq_of_cmp p p' h.1, Poly.eq_of_cmp q q' h.2]
      | _ => cases h
  | .exp base p, b, h => by
      cases b with
      | exp base' p' =>
          simp only [Atom.cmp, Ordering.then_eq_eq] at h
          rw [Scalar.eq_of_cmp h.1, Poly.eq_of_cmp p p' h.2]
      | _ => cases h
  | .power p e, b, h => by
      cases b with
      | power p' e' =>
          simp only [Atom.cmp, Ordering.then_eq_eq] at h
          rw [Poly.eq_of_cmp p p' h.1, Scalar.eq_of_cmp h.2]
      | _ => cases h
  | .unresolved t, b, h => by
      cases b with
      | unresolved u => rw [(Std.LawfulEqOrd.eq_of_compare h : t = u)]
      | _ => cases h
  | .unknown t, b, h => by
      cases b with
      | unknown u => rw [(Std.LawfulEqOrd.eq_of_compare h : t = u)]
      | _ => cases h

theorem Monomial.eq_of_cmp : ∀ (m n : Monomial), m.cmp n = .eq → m = n
  | .ofFactors fs, .ofFactors gs, h => by rw [Atom.eq_of_cmpFactors fs gs h]

/-- **Polynomials that compare as equal are equal**, by their terms. -/
theorem Poly.eq_of_cmp : ∀ (p q : Poly), p.cmp q = .eq → p = q
  | .ofTerms ts, .ofTerms us, h => by rw [Monomial.eq_of_cmpTerms ts us h]

/-- Lists of factors, one by one. -/
theorem Atom.eq_of_cmpFactors : ∀ (fs gs : List (Atom × Int)), Atom.cmpFactors fs gs = .eq → fs = gs
  | [], [], _ => rfl
  | [], _ :: _, h => by cases h
  | _ :: _, [], h => by cases h
  | (a, e) :: fs, (b, f) :: gs, h => by
      simp only [Atom.cmpFactors, Ordering.then_eq_eq] at h
      rw [Atom.eq_of_cmp a b h.1, Std.LawfulEqCmp.eq_of_compare h.2.1,
        Atom.eq_of_cmpFactors fs gs h.2.2]

/-- Lists of terms, one by one. -/
theorem Monomial.eq_of_cmpTerms :
    ∀ (ts us : List (Monomial × Scalar)), Monomial.cmpTerms ts us = .eq → ts = us
  | [], [], _ => rfl
  | [], _ :: _, h => by cases h
  | _ :: _, [], h => by cases h
  | (m, c) :: ts, (n, d) :: us, h => by
      simp only [Monomial.cmpTerms, Ordering.then_eq_eq] at h
      rw [Monomial.eq_of_cmp m n h.1, Scalar.eq_of_cmp h.2.1,
        Monomial.eq_of_cmpTerms ts us h.2.2]

end

/-- **Monomials over atoms that are compared by keys** are compared by the keys
and exponents of their factors, so that their order is linear where that of the
keys is. -/
theorem Monomial.linearOn_of_key {K : Atom → Prop} {α : Type} {key : Atom → α} [Ord α]
    [Std.TransOrd α] (hcmp : ∀ a b, K a → K b → a.cmp b = compare (key a) (key b)) :
    Assoc.LinearOn fun m : Monomial => ∀ f ∈ m.factors, K f.1 := by
  have hlex : ∀ m n : Monomial, (∀ f ∈ m.factors, K f.1) → (∀ f ∈ n.factors, K f.1) →
      compare m n = List.compareLex (compareLex (compareOn Prod.fst) (compareOn Prod.snd))
        (m.factors.map fun f => (key f.1, f.2)) (n.factors.map fun f => (key f.1, f.2)) := by
    rintro ⟨fs⟩ ⟨gs⟩ hm hn
    show Atom.cmpFactors fs gs = _
    induction fs generalizing gs with
    | nil => cases gs <;> rfl
    | cons f fs ih =>
        cases gs with
        | nil => rfl
        | cons g gs =>
            obtain ⟨hf, hfs⟩ := List.forall_mem_cons.mp hm
            obtain ⟨hg, hgs⟩ := List.forall_mem_cons.mp hn
            simp only [Atom.cmpFactors, hcmp _ _ hf hg, ih gs hfs hgs, factors, List.map_cons,
              List.compareLex_cons_cons, ← Ordering.then_assoc]
            rfl
  exact .of_key (fun m n h => (eq_of_cmp m n h).symm) hlex

end CostAnalysis
