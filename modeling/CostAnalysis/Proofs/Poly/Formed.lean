import CostAnalysis.Algebra.Summation
import CostAnalysis.Proofs.Assoc
import CostAnalysis.Proofs.Poly.Order

/-!
# What all operations on polynomials keep

`Poly.Formed` says of a polynomial, and of the polynomials inside its atoms at
every depth, that its coefficients are not zero and that no scalar outgrew its
words unnoticed.  All operations keep that, and this is what makes them succeed:
a coefficient that is not zero has a reciprocal and all integral powers, so that
the only places where an operation has to give up, and leaves an opaque fragment
that quotes its operands, are

* a division by the empty sum (`Formed.div`),
* a symbolic power of anything but a constant that is not negative
  (`Formed.power`),
* a term of a summation without a closed form, which is reported
  (`Formed.sumOver`).

Nor does an operation store a factor with the exponent zero, with one exception:
a large power multiplies the exponents of a product and keeps the low word of
each, which may be zero although the exponent is not (`Poly.losesFactor`).

**One invariant for all readings.**  The parameter `fragments` says whether
opaque fragments are allowed, and `zeros` whether factors with the exponent zero
are.  If both are `True` the invariant is about scalars only; if `fragments` is
`False` then, beyond that, the polynomial holds no opaque fragment at all
(`Formed.hasOpaque`).
-/

namespace CostAnalysis

open Numeric

mutual

/-- The scalars in the atom are in order, and it is or holds an opaque fragment,
or holds a factor with the exponent zero, only where those are allowed. -/
def Atom.Formed (fragments zeros : Prop) : Atom → Prop
  | .var _ => True
  | .log p => p.Formed fragments zeros
  | .min p q => p.Formed fragments zeros ∧ q.Formed fragments zeros
  | .max p q => p.Formed fragments zeros ∧ q.Formed fragments zeros
  | .exp base p => base.Bounded ∧ p.Formed fragments zeros
  | .power p _ => p.Formed fragments zeros
  | .unresolved _ => fragments
  | .unknown _ => fragments
termination_by structural a => a

/-- Every factor is in order. -/
def Monomial.Formed (fragments zeros : Prop) : Monomial → Prop
  | .ofFactors fs => Atom.AllFormed fragments zeros fs
termination_by structural m => m

/-- Every term is in order, and no coefficient is zero. -/
def Poly.Formed (fragments zeros : Prop) : Poly → Prop
  | .ofTerms ts => Monomial.AllFormed fragments zeros ts
termination_by structural p => p

/-- The factors of a list are in order. -/
def Atom.AllFormed (fragments zeros : Prop) : List (Atom × Int) → Prop
  | [] => True
  | (a, e) :: fs =>
    (a.Formed fragments zeros ∧ (¬ zeros → e ≠ 0)) ∧ Atom.AllFormed fragments zeros fs
termination_by structural fs => fs

/-- The terms of a list are in order. -/
def Monomial.AllFormed (fragments zeros : Prop) : List (Monomial × Scalar) → Prop
  | [] => True
  | (m, c) :: ts =>
    (m.Formed fragments zeros ∧ c.IsCoefficient) ∧ Monomial.AllFormed fragments zeros ts
termination_by structural ts => ts

end

variable {fragments zeros : Prop}

/-- A monomial is in order if each of its factors is. -/
theorem Monomial.formed_iff {m : Monomial} :
    m.Formed fragments zeros ↔
      ∀ f ∈ m.factors, f.1.Formed fragments zeros ∧ (¬ zeros → f.2 ≠ 0) := by
  obtain ⟨fs⟩ := m
  rw [Formed, factors]
  induction fs with
  | nil => simp [Atom.AllFormed]
  | cons f fs ih => rw [Atom.AllFormed, ih, List.forall_mem_cons]

theorem Poly.formed_iff {p : Poly} :
    p.Formed fragments zeros ↔ ∀ t ∈ p.terms, t.1.Formed fragments zeros ∧ t.2.IsCoefficient := by
  obtain ⟨ts⟩ := p
  rw [Formed, terms]
  induction ts with
  | nil => simp [Monomial.AllFormed]
  | cons t ts ih => rw [Monomial.AllFormed, ih, List.forall_mem_cons]

mutual

/-- **Without fragments** nothing in the atom is opaque.  The four statements go
along the kinds of data that the test goes through. -/
theorem Atom.Formed.isOpaque : ∀ {a : Atom}, a.Formed False zeros → a.isOpaque = false
  | .var _, _ => rfl
  | .log _, h => Poly.Formed.hasOpaque h
  | .min _ _, h => Bool.or_eq_false_iff.mpr
      ⟨Poly.Formed.hasOpaque h.1, Poly.Formed.hasOpaque h.2⟩
  | .max _ _, h => Bool.or_eq_false_iff.mpr
      ⟨Poly.Formed.hasOpaque h.1, Poly.Formed.hasOpaque h.2⟩
  | .exp _ _, h => Poly.Formed.hasOpaque h.2
  | .power _ _, h => Poly.Formed.hasOpaque h
  | .unresolved _, h => h.elim
  | .unknown _, h => h.elim
termination_by structural a => a

theorem Monomial.Formed.hasOpaque : ∀ {m : Monomial}, m.Formed False zeros → m.hasOpaque = false
  | .ofFactors _, h => Atom.AllFormed.anyOpaque h
termination_by structural m => m

/-- A polynomial in which no fragments are allowed has none. -/
theorem Poly.Formed.hasOpaque : ∀ {p : Poly}, p.Formed False zeros → p.hasOpaque = false
  | .ofTerms _, h => Monomial.AllFormed.anyOpaque h
termination_by structural p => p

/-- For a list of factors. -/
theorem Atom.AllFormed.anyOpaque :
    ∀ {fs : List (Atom × Int)}, Atom.AllFormed False zeros fs → Atom.anyOpaque fs = false
  | [], _ => rfl
  | (_, _) :: _, h => Bool.or_eq_false_iff.mpr
      ⟨Atom.Formed.isOpaque h.1.1, Atom.AllFormed.anyOpaque h.2⟩
termination_by structural fs => fs

/-- For a list of terms. -/
theorem Monomial.AllFormed.anyOpaque :
    ∀ {ts : List (Monomial × Scalar)}, Monomial.AllFormed False zeros ts →
      Monomial.anyOpaque ts = false
  | [], _ => rfl
  | (_, _) :: _, h => Bool.or_eq_false_iff.mpr
      ⟨Monomial.Formed.hasOpaque h.1.1, Monomial.AllFormed.anyOpaque h.2⟩
termination_by structural ts => ts

end

/-! ## Monomials

The operations on monomials add exponents or drop factors, and a factor whose
exponent becomes zero is dropped.  The one that does not, and may store a zero,
is the large power further below. -/

namespace Monomial

variable {m n : Monomial} {a : Atom}

theorem formed_one : one.Formed fragments zeros := trivial

/-- A power is, if its base is: with the exponent zero nothing is stored. -/
theorem formed_of (ha : a.Formed fragments zeros) (e : ℤ) : (of a e).Formed fragments zeros := by
  rw [of]
  split
  · exact formed_one
  · next hne => exact ⟨⟨ha, fun _ => hne⟩, trivial⟩

/-- An exponent that changes is stored only if it was found not to be zero. -/
theorem Formed.mulFactor (hm : m.Formed fragments zeros) (ha : a.Formed fragments zeros) (e : ℤ) :
    (m.mulFactor a e).Formed fragments zeros := by
  rw [formed_iff] at hm ⊢
  intro f hf
  rcases Assoc.mem_alter (fun a' h => (Atom.eq_of_cmp a a' h).symm) hf with
    hf | ⟨hkey, old?, hnew⟩
  · exact hm f hf
  · obtain ⟨hzero, htotal⟩ := Option.ite_none_left_eq_some.mp hnew
    refine ⟨hkey ▸ ha, fun _ => ?_⟩
    rwa [← Option.some.inj htotal]

/-- A product is: exponents that cancel are dropped. -/
theorem Formed.mul (hm : m.Formed fragments zeros) (hn : n.Formed fragments zeros) :
    (m.mul n).Formed fragments zeros := by
  rw [Monomial.mul]
  exact List.foldlRecOn n.factors _ hm fun acc hacc f hf =>
    hacc.mulFactor (formed_iff.mp hn f hf).1 f.2

/-- A power of a monomial is, and the power zero has no factors. -/
theorem Formed.pow (hm : m.Formed fragments zeros) (k : ℤ) : (m.pow k).Formed fragments zeros := by
  rw [formed_iff] at hm ⊢
  intro f hf
  obtain ⟨hmem, hne⟩ := List.mem_filter.mp hf
  obtain ⟨g, hg, rfl⟩ := List.mem_map.mp hmem
  exact ⟨(hm g hg).1, fun _ => of_decide_eq_true hne⟩

theorem Formed.splitVar (hm : m.Formed fragments zeros) (name : String) :
    (m.splitVar name).2.Formed fragments zeros := by
  rw [formed_iff] at hm ⊢
  intro f hf
  exact hm f (Assoc.mem_of_mem_erase (fun a' h => (Atom.eq_of_cmp _ a' h).symm) hf)

end Monomial

/-! ## The ring operations

A sum of two coefficients is dropped if it is zero, and is stored otherwise,
with the mark of an overflow where it outgrew its words. -/

namespace Poly

variable {p q : Poly} {m : Monomial}

theorem formed_zero : zero.Formed fragments zeros := trivial

/-- A single term is, whether or not its coefficient is zero: if so, it is
dropped. -/
theorem formed_term {c : Scalar} (hc : c.Bounded) (hm : m.Formed fragments zeros) :
    (term c m).Formed fragments zeros := by
  rw [term]
  split
  · exact formed_zero
  · next hzero => exact ⟨⟨hm, hc, Bool.eq_false_iff.mpr hzero⟩, trivial⟩

theorem formed_constant {c : Scalar} (hc : c.Bounded) : (constant c).Formed fragments zeros :=
  formed_term hc Monomial.formed_one

theorem formed_one : one.Formed fragments zeros :=
  formed_constant Scalar.one_fits.bounded

theorem formed_ofAtom {a : Atom} (ha : a.Formed fragments zeros) :
    (ofAtom a).Formed fragments zeros :=
  formed_term Scalar.one_fits.bounded (Monomial.formed_of ha 1)

theorem formed_unknown (h : fragments) (text : String) : (unknown text).Formed fragments zeros :=
  formed_ofAtom h

/-- The constant that a polynomial is may be zero only if it is the empty
sum. -/
theorem Formed.bounded_asConstant? (hp : p.Formed fragments zeros) {c : Scalar}
    (hc : p.asConstant? = some c) : c.Bounded ∧ (p.isZero = false → c.IsCoefficient) := by
  obtain ⟨ts⟩ := p
  rcases ts with - | ⟨⟨m, d⟩, - | ⟨t, ts⟩⟩
  · cases hc
    exact ⟨Scalar.zero_fits.bounded, fun hzero => nomatch hzero⟩
  · have hd : d.IsCoefficient := (formed_iff.mp hp (m, d) List.mem_cons_self).2
    obtain ⟨-, hc⟩ := Option.ite_none_right_eq_some.mp hc
    cases hc
    exact ⟨hd.bounded, fun _ => hd⟩
  · cases hc

/-- The single term of a polynomial is one of its terms. -/
theorem Formed.singleTerm? (hp : p.Formed fragments zeros) {t : Monomial × Scalar}
    (ht : p.singleTerm? = some t) : t.1.Formed fragments zeros ∧ t.2.IsCoefficient := by
  obtain ⟨ts⟩ := p
  rcases ts with - | ⟨t', - | ⟨t'', ts⟩⟩
  · cases ht
  · cases ht
    exact formed_iff.mp hp t List.mem_cons_self
  · cases ht

/-- A sum with a term has a new coefficient at most, which was computed and
found not to be zero. -/
theorem Formed.addTerm (hp : p.Formed fragments zeros) (hm : m.Formed fragments zeros)
    (c : Scalar) : (p.addTerm m c).Formed fragments zeros := by
  rw [formed_iff] at hp ⊢
  intro t ht
  rcases Assoc.mem_alter (fun m' h => (Monomial.eq_of_cmp m m' h).symm) ht with
    ht | ⟨hkey, old?, hnew⟩
  · exact hp t ht
  · obtain ⟨hzero, htotal⟩ := Option.ite_none_left_eq_some.mp hnew
    refine ⟨hkey ▸ hm, ?_⟩
    rw [← Option.some.inj htotal]
    exact ⟨Scalar.bounded_add _ _, Bool.eq_false_iff.mpr hzero⟩

/-- **Sums** merge terms, and what cancels is dropped. -/
theorem Formed.add (hp : p.Formed fragments zeros) (hq : q.Formed fragments zeros) :
    (p.add q).Formed fragments zeros := by
  rw [Poly.add]
  exact List.foldlRecOn q.terms _ hp fun acc hacc t ht =>
    hacc.addTerm (formed_iff.mp hq t ht).1 t.2

theorem Formed.neg (hp : p.Formed fragments zeros) : p.neg.Formed fragments zeros := by
  rw [formed_iff] at hp ⊢
  intro t ht
  obtain ⟨u, hu, rfl⟩ := List.mem_map.mp ht
  exact ⟨(hp u hu).1, (hp u hu).2.neg⟩

theorem Formed.sub (hp : p.Formed fragments zeros) (hq : q.Formed fragments zeros) :
    (p.sub q).Formed fragments zeros :=
  hp.add hq.neg

/-- The factor may be any scalar: what comes out is computed anew. -/
theorem Formed.scale (hp : p.Formed fragments zeros) (c : Scalar) :
    (p.scale c).Formed fragments zeros := by
  rw [Poly.scale]
  split
  · exact formed_zero
  · next hzero =>
      rw [formed_iff] at hp ⊢
      intro t ht
      obtain ⟨u, hu, rfl⟩ := List.mem_map.mp ht
      exact ⟨(hp u hu).1, .mul (hp u hu).2.ne_zero (Bool.eq_false_iff.mpr hzero)⟩

/-- **Products** are sums of products of terms. -/
theorem Formed.mul (hp : p.Formed fragments zeros) (hq : q.Formed fragments zeros) :
    (p.mul q).Formed fragments zeros := by
  rw [Poly.mul]
  refine List.foldlRecOn p.terms _ formed_zero fun acc hacc t ht => ?_
  refine List.foldlRecOn q.terms _ hacc fun acc' hacc' u hu => ?_
  exact hacc'.add (formed_term (Scalar.bounded_mul _ _)
    ((formed_iff.mp hp t ht).1.mul (formed_iff.mp hq u hu).1))

theorem Formed.powNat (hp : p.Formed fragments zeros) (k : ℕ) :
    (p.powNat k).Formed fragments zeros := by
  have hfrom : ∀ (k : ℕ) (acc : Poly), acc.Formed fragments zeros →
      (powFrom p acc k).Formed fragments zeros := by
    intro k
    induction k with
    | zero => exact fun acc hacc => hacc
    | succ k ih => exact fun acc hacc => ih _ (hacc.mul hp)
  exact hfrom k one formed_one

/-! ## Quotients and powers

Each of these operations has a case in which it gives up and quotes its
operands.  The lemmas say under which condition that case is not taken; without
the condition a fragment is allowed. -/

/-- Integral powers always exist: where a single term is inverted its
coefficient is not zero. -/
theorem Formed.powInt (hp : p.Formed fragments zeros) (k : ℤ) :
    (p.powInt k).Formed fragments zeros := by
  rw [Poly.powInt]
  split
  · split
    · next m c hterm =>
        obtain ⟨hm, hc⟩ := hp.singleTerm? hterm
        obtain ⟨c', hpow, hc'⟩ := hc.pow? (wrapSigned 32 k)
        simp only [hpow]
        exact formed_term hc'.bounded ((hm.pow (-1)).pow (-k))
    · exact formed_ofAtom (a := .power p _) hp
  · exact hp.powNat k.natAbs

/-- A quotient is a fragment only if the divisor is the empty sum. -/
theorem Formed.div (hp : p.Formed fragments zeros) (hq : q.Formed fragments zeros)
    (hzero : ¬ fragments → q.isZero = false) : (p.div q).Formed fragments zeros := by
  rw [Poly.div]
  split
  · next c hc =>
      split
      · exact hp.scale _
      · next hdiv =>
          by_cases hfragments : fragments
          · exact formed_unknown hfragments _
          · obtain ⟨r, hr, -⟩ := ((hq.bounded_asConstant? hc).2 (hzero hfragments)).recip?
            rw [Scalar.div?, hr] at hdiv
            cases hdiv
  · exact hp.mul (hq.powInt (-1))

/-- Exponents are scaled only if all of them stay integral. -/
theorem scaleExponents?_eq_some {exponent : Scalar} :
    ∀ {fs gs : List (Atom × ℤ)}, scaleExponents? fs exponent = some gs →
      (∀ f ∈ fs, (Scalar.ofInt f.2 * exponent).isInteger = true) ∧
        gs = fs.map fun f => (f.1, wrapSigned 64 (Scalar.ofInt f.2 * exponent).numer)
  | [], gs, h => by
      cases h
      simp
  | f :: fs, gs, h => by
      rw [scaleExponents?, List.mapM_cons] at h
      obtain ⟨g, hg, h⟩ := Option.bind_eq_some_iff.mp h
      obtain ⟨rest, hrest, h⟩ := Option.bind_eq_some_iff.mp h
      cases h
      obtain ⟨k, hk, rfl⟩ := Option.map_eq_some_iff.mp hg
      obtain ⟨hinteger, hk⟩ := Option.ite_none_right_eq_some.mp hk
      cases hk
      obtain ⟨hintegers, rfl⟩ := scaleExponents?_eq_some hrest
      exact ⟨List.forall_mem_cons.mpr ⟨hinteger, hintegers⟩, rfl⟩

/-- Whether a large power of the polynomial stores a factor with the exponent
zero: the polynomial is a product with the coefficient one, all exponents stay
integral, and one of them becomes a multiple of `2 ^ 64`, of which the low word
is kept. -/
def losesFactor (p : Poly) (exponent : Scalar) : Bool :=
  match exponent.toInt?.filter (fun k => -64 ≤ k && k ≤ 64), p.singleTerm? with
  | none, some (m, c) =>
    let scaled := m.factors.map fun f => Scalar.ofInt f.2 * exponent
    c.isOne && scaled.all (·.isInteger) && scaled.any (·.numer % 2 ^ 64 == 0)
  | _, _ => false

/-- A constant has no factor to lose. -/
theorem losesFactor_constant (c exponent : Scalar) : (constant c).losesFactor exponent = false := by
  rw [losesFactor]
  split
  · next m d hterm =>
      rw [constant, term] at hterm
      split at hterm
      · cases hterm
      · cases hterm
        simp [Monomial.one, Monomial.factors]
  · rfl

/-- A power stores a factor with the exponent zero only if it loses one. -/
theorem Formed.powRational (hp : p.Formed fragments zeros) {exponent : Scalar}
    (hkeeps : ¬ zeros → p.losesFactor exponent = false) :
    (p.powRational exponent).Formed fragments zeros := by
  rw [Poly.powRational]
  split
  · exact hp.powInt _
  · next hlarge =>
      simp only
      split
      · next factors hscaled =>
          obtain ⟨⟨m, c⟩, hterm, hscaled⟩ := Option.bind_eq_some_iff.mp hscaled
          obtain ⟨hone, hscaled⟩ := Option.ite_none_right_eq_some.mp hscaled
          obtain ⟨hintegers, rfl⟩ := scaleExponents?_eq_some hscaled
          refine formed_term Scalar.one_fits.bounded (Monomial.formed_iff.mpr fun g hg => ?_)
          obtain ⟨f, hf, rfl⟩ := List.mem_map.mp hg
          refine ⟨(Monomial.formed_iff.mp (hp.singleTerm? hterm).1 f hf).1, fun hzeros hzero => ?_⟩
          -- an exponent whose low word is zero is what the hypothesis excludes
          have hlost : p.losesFactor exponent = true := by
            have hmultiple : (Scalar.ofInt f.2 * exponent).numer % 2 ^ 64 = 0 :=
              Int.emod_eq_zero_of_dvd (Int.dvd_of_bmod_eq_zero hzero)
            simp only [losesFactor, hlarge, hterm, hone, Bool.true_and, Bool.and_eq_true,
              List.all_map, List.any_map, List.all_eq_true, List.any_eq_true, Function.comp_apply]
            exact ⟨hintegers, f, hf, beq_iff_eq.mpr hmultiple⟩
          rw [hkeeps hzeros] at hlost
          cases hlost
      · split
        · exact formed_zero
        · exact formed_ofAtom (a := .power p exponent) hp

/-- The constant term is a coefficient, or zero where there is none. -/
theorem bounded_constantTerm (hp : p.Formed fragments zeros) : p.constantTerm.Bounded := by
  rw [formed_iff] at hp
  rw [constantTerm]
  generalize p.terms = ts at hp
  induction ts with
  | nil => exact Scalar.zero_fits.bounded
  | cons t ts ih =>
      obtain ⟨ht, hts⟩ := List.forall_mem_cons.mp hp
      rw [Assoc.find?]
      split
      · exact ht.2.bounded
      · exact ih hts

/-- An exponential splits off a constant factor, which is a scalar, and keeps
the rest in an atom.
-/
theorem formed_exp {base : Scalar} (hbase : base.Bounded) (hp : p.Formed fragments zeros) :
    (exp base p).Formed fragments zeros := by
  rw [exp]
  split
  · exact formed_one
  · split
    · exact formed_zero
    · split
      · exact (formed_constant hbase).powRational fun _ => losesFactor_constant _ _
      · simp only
        split
        · have hexponent := hp.sub (formed_constant (bounded_constantTerm hp))
          exact (formed_ofAtom (a := .exp base _) ⟨hbase, hexponent⟩).scale _
        · exact formed_ofAtom (a := .exp base p) ⟨hbase, hp⟩

/-- A power is a fragment only if its exponent is symbolic and its base is no
constant or a negative one, and it stores a factor with the exponent zero only
if it loses one. -/
theorem Formed.power (hp : p.Formed fragments zeros) (hq : q.Formed fragments zeros)
    (hdefined : ¬ fragments →
      q.asConstant?.isSome = true ∨ p.asConstant?.any (!·.isNegative) = true)
    (hkeeps : ¬ zeros → q.asConstant?.any p.losesFactor = false) :
    (p.power q).Formed fragments zeros := by
  rw [Poly.power]
  split
  · next e he => exact hp.powRational fun h => by simpa only [he, Option.any_some] using hkeeps h
  · next hsymbolic =>
      by_cases hfragments : fragments
      · simp only
        split
        · next base hbase =>
            split
            · exact formed_unknown hfragments _
            · exact formed_exp (hp.bounded_asConstant? hbase).1 hq
        · exact formed_unknown hfragments _
      · rcases hdefined hfragments with hconstant | hbase
        · rw [hsymbolic] at hconstant
          cases hconstant
        · obtain ⟨base, hbase, hpositive⟩ := (Option.any_eq_true _ _).mp hbase
          simp only [hbase]
          rw [if_neg (by simpa using hpositive)]
          exact formed_exp (hp.bounded_asConstant? hbase).1 hq

/-! ## Logarithms and extrema -/

theorem formed_logAtom {a : Atom} (ha : a.Formed fragments zeros) :
    (ofAtom (.log (ofAtom a))).Formed fragments zeros :=
  formed_ofAtom (a := .log (ofAtom a)) (formed_ofAtom ha)

/-- The logarithm of one is the empty sum, and that of any other constant an atom
around it. -/
theorem formed_logConstant {c : Scalar} (hc : c.Bounded) :
    (logConstant c).Formed fragments zeros := by
  rw [logConstant]
  split
  · exact formed_zero
  · exact formed_ofAtom (a := .log (constant c)) (formed_constant hc)

end Poly

mutual

/-- **Logarithms** of single terms are sums of those of their factors; others
are kept as atoms. -/
theorem Poly.formed_log : ∀ (p : Poly), p.Formed fragments zeros → p.log.Formed fragments zeros
  | .ofTerms [], _ => Poly.formed_logConstant Scalar.zero_fits.bounded
  | .ofTerms [(.ofFactors [], _)], h => Poly.formed_logConstant h.1.2.bounded
  | .ofTerms [(.ofFactors (f :: fs), _)], h =>
      Poly.formed_addLogs (f :: fs) _ (Poly.formed_logConstant h.1.2.bounded) h.1.1
  | .ofTerms (t :: u :: ts), h => by
      rw [Poly.log]
      · exact Poly.formed_ofAtom (a := .log (.ofTerms (t :: u :: ts))) h
      · simp
      · simp
termination_by structural p => p

/-- What is added for each factor is a multiple of a logarithm. -/
theorem Poly.formed_addLogs : ∀ (fs : List (Atom × ℤ)) (acc : Poly), acc.Formed fragments zeros →
    Atom.AllFormed fragments zeros fs → (Poly.addLogs acc fs).Formed fragments zeros
  | [], _, hacc, _ => hacc
  | (.exp _ _, _) :: fs, _, hacc, h =>
      Poly.formed_addLogs fs _
        (hacc.add ((h.1.1.2.mul (Poly.formed_logConstant h.1.1.1)).scale _)) h.2
  | (.power p _, _) :: fs, _, hacc, h =>
      Poly.formed_addLogs fs _ (hacc.add (((Poly.formed_log p h.1.1).scale _).scale _)) h.2
  | (.var _, _) :: fs, _, hacc, h =>
      Poly.formed_addLogs fs _ (hacc.add ((Poly.formed_logAtom h.1.1).scale _)) h.2
  | (.log _, _) :: fs, _, hacc, h =>
      Poly.formed_addLogs fs _ (hacc.add ((Poly.formed_logAtom h.1.1).scale _)) h.2
  | (.min _ _, _) :: fs, _, hacc, h =>
      Poly.formed_addLogs fs _ (hacc.add ((Poly.formed_logAtom h.1.1).scale _)) h.2
  | (.max _ _, _) :: fs, _, hacc, h =>
      Poly.formed_addLogs fs _ (hacc.add ((Poly.formed_logAtom h.1.1).scale _)) h.2
  | (.unresolved _, _) :: fs, _, hacc, h =>
      Poly.formed_addLogs fs _ (hacc.add ((Poly.formed_logAtom h.1.1).scale _)) h.2
  | (.unknown _, _) :: fs, _, hacc, h =>
      Poly.formed_addLogs fs _ (hacc.add ((Poly.formed_logAtom h.1.1).scale _)) h.2
termination_by structural fs => fs

end

namespace Poly

variable {p q : Poly}

/-- The smaller or the greater of two is one of them, or wraps both. -/
theorem Formed.extremum (hp : p.Formed fragments zeros) (hq : q.Formed fragments zeros)
    (takeSmaller : Bool) {wrap : Poly → Poly → Atom}
    (hwrap : ∀ p q, p.Formed fragments zeros → q.Formed fragments zeros →
      (wrap p q).Formed fragments zeros) :
    (extremum takeSmaller wrap p q).Formed fragments zeros := by
  rw [Poly.extremum]
  split
  · exact hp
  · split
    · split
      · exact hp
      · exact hq
    · split
      · exact formed_ofAtom (hwrap q p hq hp)
      · exact formed_ofAtom (hwrap p q hp hq)

end Poly

/-! ## Summation

A term is summed by the formula for powers of the index, by that for a geometric
factor, or is left over.  The first two only use operations from above. -/

namespace Summation

variable {p start stop : Poly}

/-- The sum of powers up to a bound is a polynomial in the bound. -/
theorem formed_powerSum (hp : p.Formed fragments zeros) (k : ℕ) :
    (powerSum k p).Formed fragments zeros := by
  rw [powerSum]
  refine Poly.Formed.scale ?_ _
  refine List.foldlRecOn _ _ Poly.formed_zero fun acc hacc j _ => ?_
  simp only
  split
  · exact hacc
  · exact hacc.add ((hp.powNat _).scale _)

/-- The part of a linear polynomial that is free of the index is added up from
terms of it, without the index where it is one of their factors. -/
theorem linearIn?_induction {motive : Poly → Prop} {index : String} {alpha : Scalar} {beta : Poly}
    (h : linearIn? p index = some (alpha, beta)) (hzero : motive .zero)
    (hadd : ∀ t ∈ p.terms, (t.1.splitVar index).2.mentions index = false → ∀ acc, motive acc →
      motive (acc.add (Poly.term t.2 (t.1.splitVar index).2))) : motive beta := by
  rw [linearIn?] at h
  have hstate : motive ((0, Poly.zero) : Scalar × Poly).2 := hzero
  -- the state is the slope and the offset so far, and only the offset is spoken
  -- of
  generalize ((0, Poly.zero) : Scalar × Poly) = state at h hstate
  generalize p.terms = ts at hadd h
  induction ts generalizing state with
  | nil =>
      cases h
      exact hstate
  | cons t ts ih =>
      obtain ⟨ht, hts⟩ := List.forall_mem_cons.mp hadd
      rw [List.foldlM_cons] at h
      obtain ⟨next, hnext, h⟩ := Option.bind_eq_some_iff.mp h
      refine ih next ?_ hts h
      simp only at hnext
      split at hnext
      · next hfree =>
          cases hnext
          exact ht (by simpa using (Bool.and_eq_true_iff.mp hfree).2) _ hstate
      · split at hnext
        · cases hnext
          exact hstate
        · cases hnext

/-- What is constant in a linear exponent is in order. -/
theorem formed_linearIn? {index : String} {alpha : Scalar} {beta : Poly}
    (hp : p.Formed fragments zeros) (h : linearIn? p index = some (alpha, beta)) :
    beta.Formed fragments zeros := by
  rw [Poly.formed_iff] at hp
  refine linearIn?_induction h Poly.formed_zero fun t ht _ acc hacc => ?_
  exact hacc.add (Poly.formed_term (hp t ht).2.bounded ((hp t ht).1.splitVar index))

/-- A geometric sum is made with the operations from above. -/
theorem formed_geometric? {outer exponent value : Poly} {base : Scalar} {times : ℤ}
    {index : String} (houter : outer.Formed fragments zeros) (hbase : base.Bounded)
    (hexponent : exponent.Formed fragments zeros) (hstart : start.Formed fragments zeros)
    (hstop : stop.Formed fragments zeros)
    (h : geometric? outer base exponent times index start stop = some value) :
    value.Formed fragments zeros := by
  obtain ⟨⟨slope, offset⟩, hlinear, h⟩ := Option.bind_eq_some_iff.mp h
  have hbeta := (formed_linearIn? hexponent hlinear).scale (.ofInt times)
  obtain ⟨k, -, h⟩ := Option.bind_eq_some_iff.mp h
  obtain ⟨ratio, -, h⟩ := Option.bind_eq_some_iff.mp h
  split at h
  · cases h
    exact (houter.mul (Poly.formed_exp hbase hbeta)).mul ((hstop.sub hstart).add Poly.formed_one)
  · obtain ⟨inverse, -, h⟩ := Option.bind_eq_some_iff.mp h
    cases h
    have hhigh := Poly.formed_exp hbase (((hstop.add Poly.formed_one).scale
      (slope * .ofInt times)).add hbeta)
    have hlow := Poly.formed_exp hbase ((hstart.scale (slope * .ofInt times)).add hbeta)
    exact (houter.mul (hhigh.sub hlow)).scale inverse

/-- The sum of a single term, in either of the two ways. -/
theorem formed_termSum? {c : Scalar} {m : Monomial} {index : String} {value : Poly}
    (hc : c.Bounded) (hm : m.Formed fragments zeros) (hstart : start.Formed fragments zeros)
    (hstop : stop.Formed fragments zeros) (h : termSum? c m index start stop = some value) :
    value.Formed fragments zeros := by
  have hrest := Monomial.formed_iff.mp (hm.splitVar index)
  have houter : (Poly.term c (((m.splitVar index).2.factors.filter fun factor =>
      !factor.1.mentions index).foldl (fun acc factor => acc.mul (.of factor.1 factor.2))
        Monomial.one)).Formed fragments zeros := by
    refine Poly.formed_term hc (List.foldlRecOn _ _ Monomial.formed_one fun acc hacc f hf => ?_)
    exact hacc.mul (Monomial.formed_of (hrest f (List.mem_of_mem_filter hf)).1 f.2)
  -- a power of the index, or one exponential that mentions it
  simp only [termSum?] at h
  split at h
  · obtain ⟨-, h⟩ := Option.ite_none_right_eq_some.mp h
    cases h
    exact houter.mul ((formed_powerSum hstop _).sub
      (formed_powerSum (hstart.sub Poly.formed_one) _))
  · next base exponent times hdependent =>
      have hfactor : (Atom.exp base exponent).Formed fragments zeros := by
        refine (hrest (.exp base exponent, times) (List.mem_of_mem_filter (p := fun factor =>
          factor.1.mentions index) ?_)).1
        rw [hdependent]
        exact List.mem_cons_self
      obtain ⟨-, h⟩ := Option.ite_none_right_eq_some.mp h
      exact formed_geometric? houter hfactor.1 hfactor.2 hstart hstop h
  · cases h

end Summation

namespace SumOutcome

variable {index : String} {start stop : Poly} {outcome : SumOutcome} {t : Monomial × Scalar}

/-- A term without a closed form is reported. -/
theorem unresolved_subset_addTerm :
    outcome.unresolved ⊆ (outcome.addTerm index start stop t).unresolved := by
  rw [addTerm]
  intro text htext
  simp only
  split
  · exact htext
  · exact List.mem_append_left _ htext

/-- One more term keeps the value in order.  Where no fragments are allowed, the
term must have been summed. -/
theorem formed_addTerm (hstart : start.Formed fragments zeros) (hstop : stop.Formed fragments zeros)
    (houtcome : outcome.value.Formed fragments zeros)
    (ht : t.1.Formed fragments zeros ∧ t.2.IsCoefficient)
    (hunresolved : ¬ fragments → (outcome.addTerm index start stop t).unresolved = []) :
    (outcome.addTerm index start stop t).value.Formed fragments zeros := by
  rw [addTerm] at hunresolved ⊢
  simp only at hunresolved ⊢
  split
  · next value hclosed =>
      obtain ⟨-, hsum⟩ := Option.ite_none_left_eq_some.mp hclosed
      exact houtcome.add (Summation.formed_termSum? ht.2.bounded ht.1 hstart hstop hsum)
  · next hclosed =>
      simp only [hclosed] at hunresolved
      refine houtcome.add (Poly.formed_ofAtom (a := .unresolved _) ?_)
      by_contra hfragments
      exact List.append_ne_nil_of_right_ne_nil _ (List.cons_ne_nil _ _) (hunresolved hfragments)

end SumOutcome

/-- A sum holds a fragment only if it reports one. -/
theorem Poly.Formed.sumOver {body start stop : Poly} {index : String}
    (hbody : body.Formed fragments zeros) (hstart : start.Formed fragments zeros)
    (hstop : stop.Formed fragments zeros)
    (hunresolved : ¬ fragments → (body.sumOver index start stop).unresolved = []) :
    (body.sumOver index start stop).value.Formed fragments zeros := by
  rw [Poly.formed_iff] at hbody
  rw [Poly.sumOver] at hunresolved ⊢
  have houtcome : (⟨Poly.zero, []⟩ : SumOutcome).value.Formed fragments zeros := Poly.formed_zero
  generalize (⟨Poly.zero, []⟩ : SumOutcome) = outcome at hunresolved houtcome ⊢
  generalize body.terms = ts at hbody hunresolved ⊢
  induction ts generalizing outcome with
  | nil => exact houtcome
  | cons t ts ih =>
      obtain ⟨ht, hts⟩ := List.forall_mem_cons.mp hbody
      refine ih _ (SumOutcome.formed_addTerm hstart hstop houtcome ht fun hfragments => ?_) hts
        hunresolved
      -- what the first term reports is still there at the end
      have hkeep : ∀ (us : List (Monomial × Scalar)) (o : SumOutcome),
          o.unresolved ⊆ (us.foldl (SumOutcome.addTerm index start stop) o).unresolved := by
        intro us
        induction us with
        | nil => exact fun o => List.Subset.refl _
        | cons u us ih =>
            exact fun o => List.Subset.trans SumOutcome.unresolved_subset_addTerm (ih _)
      exact List.subset_nil.mp (hunresolved hfragments ▸ hkeep ts _)

end CostAnalysis
