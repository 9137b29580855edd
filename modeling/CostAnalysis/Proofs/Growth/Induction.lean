import CostAnalysis.Algebra.Growth

/-!
# Properties of all classes

The class of a polynomial without opaque fragments is made from constants,
powers of one variable, single exponential factors, products and scaled classes,
and picked among those of terms or of the sides of an extremum.  What holds of
all that is made in this way is shown for each step (`Growth.Closed`), and once
for all polynomials (`Growth.Closed.ofPoly`).

**One step for each means of making a class.**  The recursion goes through
polynomials, monomials, atoms and the lists in them, five functions that refer
to each other.  A property is shown for the means only, and never meets this
recursion.  That classes are listed in order and that they have no opaque text
are two instances (`Growth.closed_ordered`, `Growth.closed_verbatim`).

A class is also *picked*: the dominant one among those of terms, or one side of
an extremum.  What is picked is one of what was given, so a property of all is
one of it.
-/

namespace CostAnalysis

/-- The greatest element of a list is one of it. -/
theorem Assoc.mem_of_lastGreatest? {cmp : α → α → Ordering} {xs : List α} {a : α}
    (h : lastGreatest? cmp xs = some a) : a ∈ xs := by
  cases xs with
  | nil => cases h
  | cons x rest =>
      obtain rfl := Option.some.inj h
      clear h
      induction rest generalizing x with
      | nil => exact List.mem_cons_self
      | cons y rest ih =>
          rw [List.foldl_cons]
          have hmem := ih (if cmp x y == .gt then x else y)
          rcases List.mem_cons.mp hmem with heq | hrest
          · rw [heq]
            split
            · exact List.mem_cons_self
            · exact List.mem_cons_of_mem _ List.mem_cons_self
          · exact List.mem_cons_of_mem _ (List.mem_cons_of_mem _ hrest)

namespace Growth

/-- The dominant class is that of one of the terms, or that of constants. -/
theorem dominant_cases (terms : List (Scalar × Growth)) :
    dominant terms = constant ∨ ∃ t ∈ terms, dominant terms = t.2 := by
  have hmem : ∀ t ∈ (if (terms.filter fun t => !t.1.isNegative).isEmpty then terms
      else terms.filter fun t => !t.1.isNegative), t ∈ terms := by
    intro t ht
    split at ht
    · exact ht
    · exact (List.mem_filter.mp ht).1
  rw [dominant]
  cases hlast : Assoc.lastGreatest? cmp _ with
  | none => exact .inl rfl
  | some g =>
      obtain ⟨t, ht, rfl⟩ := List.mem_map.mp (Assoc.mem_of_lastGreatest? hlast)
      exact .inr ⟨t, hmem t ht, rfl⟩

/-- The property is kept by everything that classes are made with. -/
structure Closed (P : Growth → Prop) : Prop where
  polylog : ∀ v d l, P (polylog v d l)
  exponential : ∀ base exponent, P { exponentials := [(base, exponent)] }
  mul : ∀ {g h}, P g → P h → P (g.mul h)
  scaled : ∀ {g} factor, P g → P (g.scaled factor)

namespace Closed

variable {P : Growth → Prop}

section Steps

variable (hP : Closed P)
include hP

/-- A power with the exponent zero is no factor at all. -/
theorem constant : P constant := hP.polylog "" 0 0

/-- The class that dominates is one of those given, or the constant one. -/
theorem dominant {terms : List (Scalar × Growth)} (h : ∀ t ∈ terms, P t.2) :
    P (dominant terms) := by
  rcases dominant_cases terms with heq | ⟨t, ht, heq⟩
  · exact heq ▸ hP.constant
  · exact heq ▸ h t ht

/-- The class of a logarithm is a power of logarithms, or the constant one. -/
theorem ofLog (g : Growth) (e : Int) : P (ofLog g e) := by
  rw [Growth.ofLog]
  split
  · split
    · exact hP.polylog _ _ _
    · exact hP.constant
  · exact hP.constant

/-- The class of an exponential is a single exponential factor, or the constant
one. -/
theorem ofExp (vars : List String) (base : Scalar) (p : Poly) (e : Int) :
    P (ofExp vars base p e) := by
  rw [Growth.ofExp]
  split
  · exact hP.exponential _ _
  · exact hP.constant

end Steps

/-- Either of two classes. -/
theorem ite {c : Prop} [Decidable c] {g h : Growth} (hg : P g) (hh : P h) :
    P (if c then g else h) := by
  split
  · exact hg
  · exact hh

mutual

/-- **The class of a polynomial** without opaque fragments has every property
that is kept. -/
theorem ofPoly (hP : Closed P) (vars : List String) : ∀ {p : Poly}, p.hasOpaque = false →
    P (ofPoly vars p)
  | .ofTerms ts, h => by
      rw [Growth.ofPoly, if_neg (by simpa using h)]
      exact hP.dominant (ofTerms hP vars h)

/-- **The induction** goes along the five kinds of data: the terms of a
polynomial. -/
theorem ofTerms (hP : Closed P) (vars : List String) : ∀ {ts : List (Monomial × Scalar)},
    Monomial.anyOpaque ts = false → ∀ t ∈ ofTerms vars ts, P t.2
  | [], _ => nofun
  | (m, c) :: ts, h => by
      rw [Monomial.anyOpaque, Bool.or_eq_false_iff] at h
      rw [Growth.ofTerms]
      exact List.forall_mem_cons.mpr ⟨ofMonomial hP vars h.1, ofTerms hP vars h.2⟩

theorem ofMonomial (hP : Closed P) (vars : List String) : ∀ {m : Monomial}, m.hasOpaque = false →
    P (ofMonomial vars m)
  | .ofFactors _, h => ofFactors hP vars hP.constant h

theorem ofFactors (hP : Closed P) (vars : List String) : ∀ {fs : List (Atom × Int)} {acc : Growth},
    P acc → Atom.anyOpaque fs = false → P (ofFactors vars acc fs)
  | [], _, hacc, _ => hacc
  | (a, e) :: fs, acc, hacc, h => by
      rw [Atom.anyOpaque, Bool.or_eq_false_iff] at h
      rw [Growth.ofFactors]
      exact ofFactors hP vars (hP.mul hacc (ofAtom hP vars e h.1)) h.2

theorem ofAtom (hP : Closed P) (vars : List String) (e : Int) : ∀ {a : Atom}, a.isOpaque = false →
    P (ofAtom vars e a)
  | .var _, _ => ite (hP.polylog _ _ _) hP.constant
  | .log _, _ => hP.ofLog _ e
  | .exp base p, _ => hP.ofExp vars base p e
  | .power _ _, h => by
      rw [Growth.ofAtom]
      exact hP.scaled _ (ofPoly hP vars h)
  | .min p q, h => by
      obtain ⟨hp, hq⟩ := Bool.or_eq_false_iff.mp h
      exact ite (ofPoly hP vars hq) (ofPoly hP vars hp)
  | .max p q, h => by
      obtain ⟨hp, hq⟩ := Bool.or_eq_false_iff.mp h
      exact ite (ofPoly hP vars hq) (ofPoly hP vars hp)
  | .unresolved _, h => by cases h
  | .unknown _, h => by cases h

end

end Closed

/-! ## Classes without opaque text -/

/-- No opaque text stands for the class. -/
theorem closed_verbatim : Closed fun g => g.verbatim = none where
  polylog _ _ _ := rfl
  exponential _ _ := rfl
  mul hg hh := by
    rw [mul, hg, hh]
    rfl
  scaled _ hg := hg

/-- A polynomial without opaque fragments has a class without opaque text. -/
theorem verbatim_ofPoly (vars : List String) {p : Poly} (h : p.hasOpaque = false) :
    (ofPoly vars p).verbatim = none :=
  closed_verbatim.ofPoly vars h

end Growth

end CostAnalysis
