import CostAnalysis.Proofs.Poly.Sum

/-!
# Lists of terms in their order

A polynomial is *listed* over a class of monomials if its terms are of the
class, stand in the order of the monomials, and have no zero among their
coefficients.  Where the order is linear on the class (`Assoc.LinearOn`), the
ring operations keep a polynomial listed (`Poly.Listed.add`, `Poly.Listed.mul`),
as long as the class is closed under the products that are formed.

**Why a class.**  The class is a parameter because two are needed.  Products of
variables are decided by their values (`Poly.Ordered`), and powers of atoms
whose order is linear by the Laurent polynomial that they stand for
(`Poly.ListedOver`).  Beyond the order nothing about the factors is used, and a
list is decided by what it has for each monomial (`Poly.Listed.find?_eq`).
-/

namespace CostAnalysis.Poly

variable {M : Monomial → Prop} {p q : Poly} {m : Monomial}

/-- Monomials of the class in their order, with no zero among the
coefficients. -/
structure Listed (M : Monomial → Prop) (p : Poly) : Prop where
  monomials : p.Over M
  sorted : Assoc.Sorted p.terms
  ne_zero : ∀ t ∈ p.terms, t.2.isZero = false

theorem listed_zero (M : Monomial → Prop) : zero.Listed M :=
  ⟨.zero M, List.Pairwise.nil, nofun⟩

/-- A single term is listed, or is dropped if its coefficient is zero. -/
theorem listed_term (c : Scalar) (hm : M m) : (term c m).Listed M := by
  rw [term]
  split
  · exact listed_zero M
  · next hc =>
      exact ⟨by simpa [Over, terms] using hm, List.pairwise_singleton _ _,
        by simpa [terms] using hc⟩

namespace Listed

theorem mono {M' : Monomial → Prop} (hp : p.Listed M) (h : ∀ m, M m → M' m) : p.Listed M' :=
  ⟨fun t ht => h _ (hp.monomials t ht), hp.sorted, hp.ne_zero⟩

/-- Other coefficients for the same monomials, none of them zero. -/
theorem mapCoefficients (hp : p.Listed M) {g : Scalar → Scalar}
    (hg : ∀ t ∈ p.terms, (g t.2).isZero = false) :
    (ofTerms (p.terms.map fun t => (t.1, g t.2))).Listed M where
  monomials := List.forall_mem_map.mpr fun t ht => hp.monomials t ht
  sorted := List.pairwise_map.mpr hp.sorted
  ne_zero := List.forall_mem_map.mpr hg

/-- Opposites keep the monomials, and no coefficient becomes zero. -/
theorem neg (hp : p.Listed M) : p.neg.Listed M :=
  hp.mapCoefficients fun t ht => Scalar.isZero_neg_of_ne (hp.ne_zero t ht)

/-- Scaling drops terms that become zero, and keeps the order of the others. -/
theorem scale (hp : p.Listed M) (c : Scalar) : (p.scale c).Listed M := by
  rw [Poly.scale]
  split
  · exact listed_zero M
  · next hc =>
      exact hp.mapCoefficients (g := (· * c)) fun t ht =>
        (Scalar.IsCoefficient.mul (hp.ne_zero t ht) (Bool.eq_false_iff.mpr hc)).ne_zero

variable (h : Assoc.LinearOn M)
include h

/-- **One more term** is merged at its place: that the list stays sorted is
where the order has to be linear. -/
theorem addTerm (hp : p.Listed M) (hm : M m) (c : Scalar) : (p.addTerm m c).Listed M where
  monomials := hp.monomials.addTerm hm c
  sorted := h.sorted_alter hp.monomials hp.sorted hm _
  ne_zero t ht := by
    rcases Assoc.mem_alter (fun m' h => (Monomial.eq_of_cmp m m' h).symm) ht with
      ht | ⟨-, old?, hnew⟩
    · exact hp.ne_zero t ht
    · obtain ⟨hzero, htotal⟩ := Option.ite_none_left_eq_some.mp hnew
      rw [← Option.some.inj htotal]
      exact Bool.eq_false_iff.mpr hzero

/-- A sum adds term by term. -/
theorem add (hp : p.Listed M) (hq : q.Listed M) : (p.add q).Listed M := by
  rw [Poly.add]
  exact List.foldlRecOn q.terms _ hp fun acc hacc t ht =>
    addTerm h hacc (hq.monomials t ht) t.2

theorem sub (hp : p.Listed M) (hq : q.Listed M) : (p.sub q).Listed M :=
  hp.add h hq.neg

/-- A product adds the products of terms one by one, in whatever order they
come. -/
theorem mul (hmul : ∀ {m n}, M m → M n → M (m.mul n)) (hp : p.Listed M) (hq : q.Listed M) :
    (p.mul q).Listed M := by
  rw [Poly.mul]
  refine List.foldlRecOn p.terms _ (listed_zero M) fun acc hacc t ht => ?_
  refine List.foldlRecOn q.terms _ hacc fun acc' hacc' u hu => ?_
  exact add h hacc' (listed_term _ (hmul (hp.monomials t ht) (hq.monomials u hu)))

/-- A power is a repeated product. -/
theorem powNat (hone : M .one) (hmul : ∀ {m n}, M m → M n → M (m.mul n)) (hp : p.Listed M)
    (k : ℕ) : (p.powNat k).Listed M := by
  have hfrom : ∀ (k : ℕ) (acc : Poly), acc.Listed M → (powFrom p acc k).Listed M := by
    intro k
    induction k with
    | zero => exact fun acc hacc => hacc
    | succ k ih => exact fun acc hacc => ih _ (mul h hmul hacc hp)
  exact hfrom k one (listed_term 1 hone)

/-- **Coefficients decide what is listed.**  What the list has for a monomial is
its coefficient, unless that is zero. -/
theorem find?_eq (hp : p.Listed M) (hexact : p.Exact) (hm : M m) {number : Scalar → ℚ}
    (hnumber : ∀ q, number (.exact q) = q) {x : ℚ}
    (hx : x = ((Assoc.find? m p.terms).map number).getD 0) :
    Assoc.find? m p.terms = if x = 0 then none else some (.exact x) := by
  rw [hx]
  cases hfind : Assoc.find? m p.terms with
  | none => rfl
  | some c =>
      have hmem := (h.find?_eq_some_iff hp.monomials hp.sorted hm).mp hfind
      have hzero : c.isZero = false := hp.ne_zero _ hmem
      have hover : c.isOverflow = false := hexact _ hmem
      cases c with
      | overflow => cases hover
      | exact q =>
          rw [Bool.eq_false_iff, Ne, Scalar.isZero_exact] at hzero
          rw [Option.map_some, Option.getD_some, hnumber, if_neg hzero]

end Listed

end CostAnalysis.Poly
