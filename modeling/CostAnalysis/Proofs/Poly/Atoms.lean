import CostAnalysis.Proofs.Poly.Formed
import CostAnalysis.Proofs.Poly.Sum

/-!
# The atoms of a result

The ring operations bring in no atoms of their own, and quotients and powers
only make atoms around their operands: a power that is kept, an exponential, and
an opaque fragment.  So a property of atoms that these three have where the
polynomials inside are made of such atoms (`Atom.Closed`) is one of all atoms of
a result, whatever it is.

**Two instances.**  Variables are treated in this way, since the variables of a
polynomial are those of its atoms (`Poly.closed_varsIn`), and so are logarithms,
where the question is whether any is there at all (`Growth.closed_logFree`).
Neither of them is about a single operation: what an operation gives up and
quotes has no atoms of its own left, and this is why division and powers need no
hypothesis.
-/

namespace CostAnalysis

/-- All atoms of the monomial have the property. -/
def Monomial.AtomsIn (K : Atom → Prop) (m : Monomial) : Prop :=
  ∀ f ∈ m.factors, K f.1

/-- All atoms of the polynomial have the property. -/
def Poly.AtomsIn (K : Atom → Prop) (p : Poly) : Prop :=
  p.Over (Monomial.AtomsIn K)

/-- The atoms that quotients and powers make have the property. -/
structure Atom.Closed (K : Atom → Prop) : Prop where
  unknown : ∀ t : String, K (.unknown t)
  exp : ∀ (base : Scalar) {p : Poly}, p.AtomsIn K → K (.exp base p)
  power : ∀ {p : Poly} (exponent : Scalar), p.AtomsIn K → K (.power p exponent)

variable {K : Atom → Prop}

/-! ## Monomials -/

namespace Monomial

variable {m n : Monomial} {a : Atom}

theorem atomsIn_one : one.AtomsIn K := nofun

/-- A power has its base as its only atom. -/
theorem atomsIn_of (ha : K a) (e : ℤ) : (of a e).AtomsIn K := by
  rw [of]
  split
  · exact atomsIn_one
  · exact List.forall_mem_singleton.mpr ha

namespace AtomsIn

/-- One more factor brings in its base. -/
theorem mulFactor (hm : m.AtomsIn K) (ha : K a) (e : ℤ) : (m.mulFactor a e).AtomsIn K := by
  intro f hf
  rcases Assoc.mem_alter (fun a' h => (Atom.eq_of_cmp a a' h).symm) hf with hf | ⟨hkey, -⟩
  · exact hm f hf
  · exact hkey ▸ ha

/-- A product has the atoms of its factors. -/
theorem mul (hm : m.AtomsIn K) (hn : n.AtomsIn K) : (m.mul n).AtomsIn K := by
  rw [Monomial.mul]
  exact List.foldlRecOn n.factors _ hm fun acc hacc f hf => hacc.mulFactor (hn f hf) f.2

/-- A power of a monomial has the atoms of the monomial. -/
theorem pow (hm : m.AtomsIn K) (k : ℤ) : (m.pow k).AtomsIn K := by
  intro f hf
  obtain ⟨g, hg, rfl⟩ := List.mem_map.mp (List.mem_of_mem_filter hf)
  exact hm g hg

end AtomsIn

end Monomial

/-! ## Polynomials

For the ring operations these are instances of what they keep of every property
of monomials.  Only those behind `Closed` can make an atom. -/

namespace Poly

variable {p q : Poly} {m : Monomial}

theorem atomsIn_zero : zero.AtomsIn K := Over.zero _

theorem atomsIn_term (c : Scalar) (hm : m.AtomsIn K) : (term c m).AtomsIn K :=
  Over.term c hm

theorem atomsIn_constant (c : Scalar) : (constant c).AtomsIn K :=
  atomsIn_term c Monomial.atomsIn_one

theorem atomsIn_ofAtom {a : Atom} (ha : K a) : (ofAtom a).AtomsIn K :=
  atomsIn_term 1 (Monomial.atomsIn_of ha 1)

namespace AtomsIn

theorem add (hp : p.AtomsIn K) (hq : q.AtomsIn K) : (p.add q).AtomsIn K :=
  Over.add hp hq

theorem neg (hp : p.AtomsIn K) : p.neg.AtomsIn K :=
  Over.neg hp

theorem sub (hp : p.AtomsIn K) (hq : q.AtomsIn K) : (p.sub q).AtomsIn K :=
  Over.sub hp hq

theorem scale (hp : p.AtomsIn K) (c : Scalar) : (p.scale c).AtomsIn K :=
  Over.scale hp c

theorem mul (hp : p.AtomsIn K) (hq : q.AtomsIn K) : (p.mul q).AtomsIn K :=
  Over.mul hp hq fun _ _ hm hn => hm.mul hn

/-- Repeated multiplication brings in no atom. -/
theorem powNat (hp : p.AtomsIn K) (k : ℕ) : (p.powNat k).AtomsIn K := by
  have hfrom : ∀ (k : ℕ) (acc : Poly), acc.AtomsIn K → (powFrom p acc k).AtomsIn K := by
    intro k
    induction k with
    | zero => exact fun acc hacc => hacc
    | succ k ih => exact fun acc hacc => ih _ (hacc.mul hp)
  exact hfrom k one (atomsIn_constant 1)

/-- The monomial of a single term has atoms of the polynomial. -/
theorem singleTerm? (hp : p.AtomsIn K) {t : Monomial × Scalar} (ht : p.singleTerm? = some t) :
    t.1.AtomsIn K := by
  obtain ⟨ts⟩ := p
  rcases ts with - | ⟨t', - | ⟨t'', ts⟩⟩
  · cases ht
  · cases ht
    exact hp t List.mem_cons_self
  · cases ht

section Closed

variable (hK : Atom.Closed K)
include hK

theorem unknown (text : String) : (Poly.unknown text).AtomsIn K :=
  atomsIn_ofAtom (hK.unknown text)

/-- A negative power is a power of the reciprocal, or a fragment. -/
theorem powInt (hp : p.AtomsIn K) (k : ℤ) : (p.powInt k).AtomsIn K := by
  rw [Poly.powInt]
  split
  · split
    · next m c hterm =>
        split
        · exact atomsIn_term _ (((hp.singleTerm? hterm).pow (-1)).pow (-k))
        · exact unknown hK _
    · exact atomsIn_ofAtom (hK.power _ hp)
  · exact hp.powNat k.natAbs

/-- A quotient is formed with the reciprocal of a single term; otherwise the
divisor is kept as a power, or all of it is quoted. -/
theorem div (hp : p.AtomsIn K) (hq : q.AtomsIn K) : (p.div q).AtomsIn K := by
  rw [Poly.div]
  split
  · split
    · exact hp.scale _
    · exact unknown hK _
  · exact hp.mul (hq.powInt hK (-1))

/-- A rational power is taken factor by factor, where exponents stay integral,
or kept as an atom.
-/
theorem powRational (hp : p.AtomsIn K) (exponent : Scalar) :
    (p.powRational exponent).AtomsIn K := by
  rw [Poly.powRational]
  split
  · exact hp.powInt hK _
  · simp only
    split
    · next factors hscaled =>
        obtain ⟨⟨m, c⟩, hterm, hscaled⟩ := Option.bind_eq_some_iff.mp hscaled
        obtain ⟨-, hscaled⟩ := Option.ite_none_right_eq_some.mp hscaled
        obtain ⟨-, rfl⟩ := scaleExponents?_eq_some hscaled
        refine atomsIn_term 1 fun g hg => ?_
        obtain ⟨f, hf, rfl⟩ := List.mem_map.mp hg
        exact hp.singleTerm? hterm f hf
    · split
      · exact atomsIn_zero
      · exact atomsIn_ofAtom (hK.power exponent hp)

/-- An exponential takes the constant term of its exponent out, and keeps the
rest as an atom. -/
theorem exp (hp : p.AtomsIn K) (base : Scalar) : (Poly.exp base p).AtomsIn K := by
  rw [Poly.exp]
  split
  · exact atomsIn_constant 1
  · split
    · exact atomsIn_zero
    · split
      · exact (atomsIn_constant base).powRational hK _
      · simp only
        split
        · have hexponent := hp.sub (atomsIn_constant p.constantTerm)
          exact (atomsIn_ofAtom (hK.exp base hexponent)).scale _
        · exact atomsIn_ofAtom (hK.exp base hp)

/-- A power is one of the above, by what its exponent is. -/
theorem power (hp : p.AtomsIn K) (hq : q.AtomsIn K) : (p.power q).AtomsIn K := by
  rw [Poly.power]
  split
  · exact hp.powRational hK _
  · simp only
    split
    · split
      · exact unknown hK _
      · exact hq.exp hK _
    · exact unknown hK _

end Closed

end AtomsIn

end Poly

end CostAnalysis
