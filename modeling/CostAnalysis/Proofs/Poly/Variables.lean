import CostAnalysis.Proofs.Poly.Atoms

/-!
# The variables of a result

No operation on polynomials brings in a variable.  `Poly.VarsIn S` says that the
variables of a polynomial, at every depth, are in `S`, and each operation keeps
it: the ring operations because they keep what all monomials have (`Poly.Over`),
the others because the atoms they make hold nothing but the operands.

**Summation removes one.**  The body of a sum may have the index beside the
variables in `S`, and the value has it no longer (`VarsIn.sumOver`).  A term is
taken apart for this: the index as a factor is split off, and of the other
factors those that do not mention the index go before the sum.  What is left is
a geometric factor, of which the exponent is linear in the index, or the term is
quoted.  All of it rests on one fact about `mentions`, which looks through every
kind of atom: a variable that is not mentioned does not occur
(`Poly.not_mem_vars`).  The bounds replace the index, and they stand outside of
the sum, so that whether the index occurs in them does not matter here.

Opaque fragments have no variables.  Their texts may have words in them that are
read as variables again, and the text of a sum that was quoted has the index.
-/

namespace CostAnalysis

variable {S : String → Prop}

/-! ## All variables -/

/-- All variables of the atom have the property. -/
def Atom.VarsIn (S : String → Prop) (a : Atom) : Prop :=
  ∀ v ∈ a.vars, S v

/-- All variables of the monomial have the property. -/
def Monomial.VarsIn (S : String → Prop) (m : Monomial) : Prop :=
  ∀ v ∈ m.vars, S v

/-- All variables of the polynomial have the property. -/
def Poly.VarsIn (S : String → Prop) (p : Poly) : Prop :=
  ∀ v ∈ p.vars, S v

/-- The variables of a list of factors are those of each factor. -/
theorem Atom.mem_allVars {v : String} {fs : List (Atom × ℤ)} :
    v ∈ Atom.allVars fs ↔ ∃ f ∈ fs, v ∈ f.1.vars := by
  induction fs with
  | nil => simp [Atom.allVars]
  | cons f fs ih => simp [Atom.allVars, ih]

theorem Monomial.mem_allVars {v : String} {ts : List (Monomial × Scalar)} :
    v ∈ Monomial.allVars ts ↔ ∃ t ∈ ts, v ∈ t.1.vars := by
  induction ts with
  | nil => simp [Monomial.allVars]
  | cons t ts ih => simp [Monomial.allVars, ih]

/-- A monomial has the property if each of its atoms has. -/
theorem Monomial.varsIn_iff {m : Monomial} : m.VarsIn S ↔ ∀ f ∈ m.factors, f.1.VarsIn S := by
  obtain ⟨fs⟩ := m
  simp only [VarsIn, vars, Atom.mem_allVars, factors, Atom.VarsIn]
  refine ⟨fun h f hf v hv => h v ⟨f, hf, hv⟩, ?_⟩
  rintro h v ⟨f, hf, hv⟩
  exact h f hf v hv

theorem Poly.varsIn_iff {p : Poly} : p.VarsIn S ↔ p.Over (Monomial.VarsIn S) := by
  obtain ⟨ts⟩ := p
  simp only [VarsIn, vars, Monomial.mem_allVars, Over, terms, Monomial.VarsIn]
  refine ⟨fun h t ht v hv => h v ⟨t, ht, hv⟩, ?_⟩
  rintro h v ⟨t, ht, hv⟩
  exact h t ht v hv

namespace Atom.VarsIn

variable {p q : Poly}

/-- An extremum has the variables of its two sides. -/
theorem both (hp : p.VarsIn S) (hq : q.VarsIn S) : ∀ v ∈ p.vars ++ q.vars, S v :=
  List.forall_mem_append.mpr ⟨hp, hq⟩

end Atom.VarsIn

/-! ### What is not mentioned -/

mutual

/-- **What is not mentioned does not occur.**  The test goes through every kind
of atom, and so does this induction; the five statements are about the kinds of
data that it goes through. -/
theorem Atom.not_mem_vars (name : String) :
    ∀ {a : Atom}, a.mentions name = false → name ∉ a.vars
  | .var v, h => fun hmem => by
      obtain rfl := List.mem_singleton.mp hmem
      exact absurd h (by simp [Atom.mentions])
  | .log _, h => Poly.not_mem_vars name h
  | .min _ _, h => fun hmem => by
      obtain ⟨hp, hq⟩ := Bool.or_eq_false_iff.mp h
      exact (List.mem_append.mp hmem).elim (Poly.not_mem_vars name hp) (Poly.not_mem_vars name hq)
  | .max _ _, h => fun hmem => by
      obtain ⟨hp, hq⟩ := Bool.or_eq_false_iff.mp h
      exact (List.mem_append.mp hmem).elim (Poly.not_mem_vars name hp) (Poly.not_mem_vars name hq)
  | .exp _ _, h => Poly.not_mem_vars name h
  | .power _ _, h => Poly.not_mem_vars name h
  | .unresolved _, _ => List.not_mem_nil
  | .unknown _, _ => List.not_mem_nil
termination_by structural a => a

/-- For a monomial, by its factors. -/
theorem Monomial.not_mem_vars (name : String) :
    ∀ {m : Monomial}, m.mentions name = false → name ∉ m.vars
  | .ofFactors _, h => Atom.not_mem_allVars name h
termination_by structural m => m

/-- A variable that a polynomial does not depend on does not occur in it. -/
theorem Poly.not_mem_vars (name : String) :
    ∀ {p : Poly}, p.mentions name = false → name ∉ p.vars
  | .ofTerms _, h => Monomial.not_mem_allVars name h
termination_by structural p => p

/-- For a list of factors, one by one. -/
theorem Atom.not_mem_allVars (name : String) :
    ∀ {fs : List (Atom × ℤ)}, Atom.anyMentions name fs = false → name ∉ Atom.allVars fs
  | [], _ => List.not_mem_nil
  | (_, _) :: _, h => fun hmem => by
      obtain ⟨ha, hfs⟩ := Bool.or_eq_false_iff.mp h
      exact (List.mem_append.mp hmem).elim (Atom.not_mem_vars name ha)
        (Atom.not_mem_allVars name hfs)
termination_by structural fs => fs

/-- For a list of terms, one by one. -/
theorem Monomial.not_mem_allVars (name : String) :
    ∀ {ts : List (Monomial × Scalar)}, Monomial.anyMentions name ts = false →
      name ∉ Monomial.allVars ts
  | [], _ => List.not_mem_nil
  | (_, _) :: _, h => fun hmem => by
      obtain ⟨hm, hts⟩ := Bool.or_eq_false_iff.mp h
      exact (List.mem_append.mp hmem).elim (Monomial.not_mem_vars name hm)
        (Monomial.not_mem_allVars name hts)
termination_by structural ts => ts

end

/-! ## Monomials

Factors are merged or dropped, and never made of anything but what was there. -/

namespace Monomial

variable {m n : Monomial} {a : Atom}

theorem varsIn_one : one.VarsIn S := nofun

/-- A power has the variables of its base. -/
theorem varsIn_of (ha : a.VarsIn S) (e : ℤ) : (of a e).VarsIn S := by
  rw [of]
  split
  · exact varsIn_one
  · exact varsIn_iff.mpr (List.forall_mem_singleton.mpr ha)

theorem VarsIn.mul (hm : m.VarsIn S) (hn : n.VarsIn S) : (m.mul n).VarsIn S :=
  varsIn_iff.mpr (AtomsIn.mul (varsIn_iff.mp hm) (varsIn_iff.mp hn))

/-- Splitting off a variable keeps those of the others. -/
theorem VarsIn.splitVar (hm : m.VarsIn S) (name : String) : (m.splitVar name).2.VarsIn S := by
  rw [varsIn_iff] at hm ⊢
  intro f hf
  exact hm f (Assoc.mem_of_mem_erase (fun a' h => (Atom.eq_of_cmp _ a' h).symm) hf)

end Monomial

/-! ## Polynomials

The ring operations only look at monomials, so each of these is an instance of
what they keep of every property of monomials. -/

namespace Poly

variable {p q : Poly} {m : Monomial}

/-- The variables are those of the atoms. -/
theorem varsIn_iff_atomsIn : p.VarsIn S ↔ p.AtomsIn (Atom.VarsIn S) := by
  have hmonomial : Monomial.VarsIn S = Monomial.AtomsIn (Atom.VarsIn S) :=
    funext fun _ => propext Monomial.varsIn_iff
  rw [varsIn_iff, hmonomial]
  rfl

/-- Quotients and powers make atoms around their operands, and so with no other
variables. -/
theorem closed_varsIn : Atom.Closed (Atom.VarsIn S) where
  unknown _ := nofun
  exp _ {_} hp := varsIn_iff_atomsIn.mpr hp
  power _ hp := varsIn_iff_atomsIn.mpr hp

theorem varsIn_zero : zero.VarsIn S := nofun

theorem varsIn_term (c : Scalar) (hm : m.VarsIn S) : (term c m).VarsIn S :=
  varsIn_iff.mpr (Over.term c hm)

theorem varsIn_constant (c : Scalar) : (constant c).VarsIn S :=
  varsIn_term c Monomial.varsIn_one

theorem varsIn_one : one.VarsIn S :=
  varsIn_constant 1

theorem varsIn_ofAtom {a : Atom} (ha : a.VarsIn S) : (ofAtom a).VarsIn S :=
  varsIn_term 1 (Monomial.varsIn_of ha 1)

theorem varsIn_unknown (text : String) : (unknown text).VarsIn S :=
  varsIn_ofAtom (a := .unknown text) nofun

namespace VarsIn

theorem mono {S' : String → Prop} (hp : p.VarsIn S) (h : ∀ v, S v → S' v) : p.VarsIn S' :=
  fun v hv => h v (hp v hv)

theorem add (hp : p.VarsIn S) (hq : q.VarsIn S) : (p.add q).VarsIn S :=
  varsIn_iff.mpr ((varsIn_iff.mp hp).add (varsIn_iff.mp hq))

theorem neg (hp : p.VarsIn S) : p.neg.VarsIn S :=
  varsIn_iff.mpr (varsIn_iff.mp hp).neg

theorem sub (hp : p.VarsIn S) (hq : q.VarsIn S) : (p.sub q).VarsIn S :=
  hp.add hq.neg

theorem scale (hp : p.VarsIn S) (c : Scalar) : (p.scale c).VarsIn S :=
  varsIn_iff.mpr ((varsIn_iff.mp hp).scale c)

theorem mul (hp : p.VarsIn S) (hq : q.VarsIn S) : (p.mul q).VarsIn S :=
  varsIn_iff_atomsIn.mpr ((varsIn_iff_atomsIn.mp hp).mul (varsIn_iff_atomsIn.mp hq))

theorem powNat (hp : p.VarsIn S) (k : ℕ) : (p.powNat k).VarsIn S :=
  varsIn_iff_atomsIn.mpr ((varsIn_iff_atomsIn.mp hp).powNat k)

/-! ### Quotients and powers -/

/-- A quotient has the variables of its operands, where it is formed; otherwise
it is a fragment, and has none. -/
theorem div (hp : p.VarsIn S) (hq : q.VarsIn S) : (p.div q).VarsIn S :=
  varsIn_iff_atomsIn.mpr
    ((varsIn_iff_atomsIn.mp hp).div closed_varsIn (varsIn_iff_atomsIn.mp hq))

theorem exp (hp : p.VarsIn S) (base : Scalar) : (Poly.exp base p).VarsIn S :=
  varsIn_iff_atomsIn.mpr ((varsIn_iff_atomsIn.mp hp).exp closed_varsIn base)

theorem power (hp : p.VarsIn S) (hq : q.VarsIn S) : (p.power q).VarsIn S :=
  varsIn_iff_atomsIn.mpr
    ((varsIn_iff_atomsIn.mp hp).power closed_varsIn (varsIn_iff_atomsIn.mp hq))

end VarsIn

/-! ### Logarithms and extrema -/

theorem varsIn_logAtom {a : Atom} (ha : a.VarsIn S) : (ofAtom (.log (ofAtom a))).VarsIn S :=
  varsIn_ofAtom (a := .log (ofAtom a)) (varsIn_ofAtom ha)

/-- The logarithm of a constant has no variable. -/
theorem varsIn_logConstant (c : Scalar) : (logConstant c).VarsIn S := by
  rw [logConstant]
  split
  · exact varsIn_zero
  · exact varsIn_ofAtom (a := .log (constant c)) (varsIn_constant c)

end Poly

mutual

/-- **Logarithms** are taken apart along products and powers, down to the bases,
and no variable comes in.  The two statements go along the polynomial and along
the factors of a term. -/
theorem Poly.varsIn_log : ∀ (p : Poly), p.VarsIn S → p.log.VarsIn S
  | .ofTerms [], _ => Poly.varsIn_logConstant 0
  | .ofTerms [(.ofFactors [], c)], _ => Poly.varsIn_logConstant c
  | .ofTerms [(.ofFactors (f :: fs), c)], h =>
      Poly.varsIn_addLogs (f :: fs) _ (Poly.varsIn_logConstant c)
        (Monomial.varsIn_iff.mp (Poly.varsIn_iff.mp h _ List.mem_cons_self))
  | .ofTerms (t :: u :: ts), h => by
      rw [Poly.log]
      · exact Poly.varsIn_ofAtom (a := .log (.ofTerms (t :: u :: ts))) h
      · simp
      · simp
termination_by structural p => p

/-- What is added for each factor is a multiple of a logarithm of its base. -/
theorem Poly.varsIn_addLogs : ∀ (fs : List (Atom × ℤ)) (acc : Poly), acc.VarsIn S →
    (∀ f ∈ fs, f.1.VarsIn S) → (Poly.addLogs acc fs).VarsIn S
  | [], _, hacc, _ => hacc
  | (.exp base _, _) :: fs, _, hacc, h =>
      Poly.varsIn_addLogs fs _
        (hacc.add ((Poly.VarsIn.mul (h _ List.mem_cons_self)
          (Poly.varsIn_logConstant base)).scale _)) (List.forall_mem_cons.mp h).2
  | (.power p _, _) :: fs, _, hacc, h =>
      Poly.varsIn_addLogs fs _
        (hacc.add (((Poly.varsIn_log p (h _ List.mem_cons_self)).scale _).scale _))
        (List.forall_mem_cons.mp h).2
  | (.var _, _) :: fs, _, hacc, h =>
      Poly.varsIn_addLogs fs _
        (hacc.add ((Poly.varsIn_logAtom (h _ List.mem_cons_self)).scale _))
        (List.forall_mem_cons.mp h).2
  | (.log _, _) :: fs, _, hacc, h =>
      Poly.varsIn_addLogs fs _
        (hacc.add ((Poly.varsIn_logAtom (h _ List.mem_cons_self)).scale _))
        (List.forall_mem_cons.mp h).2
  | (.min _ _, _) :: fs, _, hacc, h =>
      Poly.varsIn_addLogs fs _
        (hacc.add ((Poly.varsIn_logAtom (h _ List.mem_cons_self)).scale _))
        (List.forall_mem_cons.mp h).2
  | (.max _ _, _) :: fs, _, hacc, h =>
      Poly.varsIn_addLogs fs _
        (hacc.add ((Poly.varsIn_logAtom (h _ List.mem_cons_self)).scale _))
        (List.forall_mem_cons.mp h).2
  | (.unresolved _, _) :: fs, _, hacc, h =>
      Poly.varsIn_addLogs fs _
        (hacc.add ((Poly.varsIn_logAtom (h _ List.mem_cons_self)).scale _))
        (List.forall_mem_cons.mp h).2
  | (.unknown _, _) :: fs, _, hacc, h =>
      Poly.varsIn_addLogs fs _
        (hacc.add ((Poly.varsIn_logAtom (h _ List.mem_cons_self)).scale _))
        (List.forall_mem_cons.mp h).2
termination_by structural fs => fs

end

namespace Poly.VarsIn

variable {p q : Poly}

theorem log (hp : p.VarsIn S) : p.log.VarsIn S :=
  varsIn_log p hp

/-- The smaller or the greater of two is one of them, or wraps both. -/
theorem extremum (hp : p.VarsIn S) (hq : q.VarsIn S) (takeSmaller : Bool)
    {wrap : Poly → Poly → Atom}
    (hwrap : ∀ p q, p.VarsIn S → q.VarsIn S → (wrap p q).VarsIn S) :
    (Poly.extremum takeSmaller wrap p q).VarsIn S := by
  rw [Poly.extremum]
  split
  · exact hp
  · split
    · split
      · exact hp
      · exact hq
    · split
      · exact varsIn_ofAtom (hwrap q p hq hp)
      · exact varsIn_ofAtom (hwrap p q hp hq)

theorem minWith (hp : p.VarsIn S) (hq : q.VarsIn S) : (p.minWith q).VarsIn S :=
  hp.extremum hq true fun _ _ hp hq => Atom.VarsIn.both hp hq

theorem maxWith (hp : p.VarsIn S) (hq : q.VarsIn S) : (p.maxWith q).VarsIn S :=
  hp.extremum hq false fun _ _ hp hq => Atom.VarsIn.both hp hq

end Poly.VarsIn

/-! ## Summation -/

/-- A variable that is the index of a sum or has the property. -/
def IndexOr (index : String) (S : String → Prop) (v : String) : Prop :=
  v = index ∨ S v

namespace Summation

variable {p start stop : Poly} {index : String}

/-- What does not mention the index has the other variables only. -/
theorem varsIn_of_mentions {vars : List String} (hvars : ∀ v ∈ vars, IndexOr index S v)
    (hindex : index ∉ vars) : ∀ v ∈ vars, S v := by
  intro v hv
  refine (hvars v hv).resolve_left ?_
  rintro rfl
  exact hindex hv

/-- The sum of the powers of numbers up to a bound is a polynomial in the
bound. -/
theorem varsIn_powerSum (hp : p.VarsIn S) (k : ℕ) : (powerSum k p).VarsIn S := by
  rw [powerSum]
  refine Poly.VarsIn.scale ?_ _
  refine List.foldlRecOn _ _ Poly.varsIn_zero fun acc hacc j _ => ?_
  simp only
  split
  · exact hacc
  · exact hacc.add ((hp.powNat _).scale _)

/-- What is constant in a linear exponent does not have the index. -/
theorem varsIn_linearIn? {alpha : Scalar} {beta : Poly} (hp : p.VarsIn (IndexOr index S))
    (h : linearIn? p index = some (alpha, beta)) : beta.VarsIn S := by
  rw [Poly.varsIn_iff] at hp
  refine linearIn?_induction h Poly.varsIn_zero fun t ht hmentions acc hacc => ?_
  exact hacc.add (Poly.varsIn_term _ (varsIn_of_mentions ((hp t ht).splitVar index)
    (Monomial.not_mem_vars index hmentions)))

/-- A geometric sum puts the bounds in the place of the index, so that the index
is gone. -/
theorem varsIn_geometric? {outer exponent value : Poly} {base : Scalar} {times : ℤ}
    (houter : outer.VarsIn S) (hexponent : exponent.VarsIn (IndexOr index S))
    (hstart : start.VarsIn S) (hstop : stop.VarsIn S)
    (h : geometric? outer base exponent times index start stop = some value) :
    value.VarsIn S := by
  obtain ⟨⟨slope, offset⟩, hlinear, h⟩ := Option.bind_eq_some_iff.mp h
  have hbeta := (varsIn_linearIn? hexponent hlinear).scale (.ofInt times)
  obtain ⟨k, -, h⟩ := Option.bind_eq_some_iff.mp h
  obtain ⟨ratio, -, h⟩ := Option.bind_eq_some_iff.mp h
  split at h
  · cases h
    exact (houter.mul (hbeta.exp base)).mul ((hstop.sub hstart).add Poly.varsIn_one)
  · obtain ⟨inverse, -, h⟩ := Option.bind_eq_some_iff.mp h
    cases h
    have hhigh := (((hstop.add Poly.varsIn_one).scale (slope * .ofInt times)).add hbeta).exp base
    have hlow := ((hstart.scale (slope * .ofInt times)).add hbeta).exp base
    exact (houter.mul (hhigh.sub hlow)).scale inverse

/-- The closed form of a term has no index. -/
theorem varsIn_termSum? {c : Scalar} {m : Monomial} {value : Poly}
    (hm : m.VarsIn (IndexOr index S)) (hstart : start.VarsIn S) (hstop : stop.VarsIn S)
    (h : termSum? c m index start stop = some value) : value.VarsIn S := by
  have hrest := Monomial.varsIn_iff.mp (hm.splitVar index)
  have houter : (Poly.term c (((m.splitVar index).2.factors.filter fun factor =>
      !factor.1.mentions index).foldl (fun acc factor => acc.mul (.of factor.1 factor.2))
        Monomial.one)).VarsIn S := by
    refine Poly.varsIn_term c (List.foldlRecOn _ _ Monomial.varsIn_one fun acc hacc f hf => ?_)
    obtain ⟨hmem, hfree⟩ := List.mem_filter.mp hf
    have hmentions : f.1.mentions index = false := by simpa using hfree
    exact hacc.mul (Monomial.varsIn_of (varsIn_of_mentions (hrest f hmem)
      (Atom.not_mem_vars index hmentions)) f.2)
  simp only [termSum?] at h
  split at h
  · obtain ⟨-, h⟩ := Option.ite_none_right_eq_some.mp h
    cases h
    exact houter.mul ((varsIn_powerSum hstop _).sub
      (varsIn_powerSum (hstart.sub Poly.varsIn_one) _))
  · next base exponent times hdependent =>
      have hfactor : (Atom.exp base exponent).VarsIn (IndexOr index S) := by
        refine hrest (.exp base exponent, times) (List.mem_of_mem_filter (p := fun factor =>
          factor.1.mentions index) ?_)
        rw [hdependent]
        exact List.mem_cons_self
      obtain ⟨-, h⟩ := Option.ite_none_right_eq_some.mp h
      exact varsIn_geometric? houter hfactor hstart hstop h
  · cases h

end Summation

/-- **A sum has no index.**  The variables of its value are those of the bounds,
and those of the body without the index. -/
theorem Poly.VarsIn.sumOver {body start stop : Poly} {index : String}
    (hbody : body.VarsIn (IndexOr index S)) (hstart : start.VarsIn S) (hstop : stop.VarsIn S) :
    (body.sumOver index start stop).value.VarsIn S := by
  rw [Poly.sumOver]
  refine List.foldlRecOn (motive := fun outcome : SumOutcome => outcome.value.VarsIn S)
    body.terms _ Poly.varsIn_zero fun outcome houtcome t ht => ?_
  rw [SumOutcome.addTerm]
  simp only
  split
  · next value hclosed =>
      obtain ⟨-, hsum⟩ := Option.ite_none_left_eq_some.mp hclosed
      exact houtcome.add
        (Summation.varsIn_termSum? (varsIn_iff.mp hbody t ht) hstart hstop hsum)
  · exact houtcome.add
      (varsIn_ofAtom (a := .unresolved _) fun _ hv => absurd hv List.not_mem_nil)

end CostAnalysis
