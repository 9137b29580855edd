import CostAnalysis.Proofs.Growth.Induction
import CostAnalysis.Proofs.Growth.Weights
import CostAnalysis.Proofs.Poly.Formed
import Mathlib.Tactic.Ring

/-!
# Classes of roots

A power of a product with an exponent that is no integer is made in two ways.
Where every exponent of the product stays integral, the exponents are
multiplied; anywhere else the power becomes an atom of its own, and the class of
the product is scaled.  Both ways scale the power of each variable and of each
logarithm (`Growth.ofPoly_powRational`).

**Exponential factors are not scaled** by the second way: the square root of
`2 ^ n` gets the class `2 ^ n`.  The first way scales those exponentials that
are factors themselves, but not those inside of a power.  An extremum counts
once whatever its exponent is, so that the first way needs that there is none.

**How the two ways are compared.**  A class is a list of powers in the order of
the variables, so it is enough to compare it variable by variable.
`Growth.Scales` says what scaling does to each power, and each of the two ways
is shown to do that.
-/

namespace CostAnalysis

open Numeric

/-! ## Powers of single variables

A class lists a power for each variable that occurs.  To compare two classes
variable by variable, each power is read off by a weight that is one on that
variable and zero elsewhere, so that what is known of weighted sums applies. -/

namespace Growth

/-- The power of a variable in a class. -/
def degreeOf (g : Growth) (v : String) : Scalar :=
  (Assoc.find? v g.degrees).getD 0

/-- The power of the logarithm of a variable in a class. -/
def logOf (g : Growth) (v : String) : Scalar :=
  (Assoc.find? v g.logs).getD 0

/-- The powers stand in the order of the variables, so that each variable has
one. -/
structure Ordered (g : Growth) : Prop where
  degrees : Assoc.Sorted g.degrees
  logs : Assoc.Sorted g.logs

/-- Names are in a linear order. -/
theorem linearOn_string : Assoc.LinearOn fun _ : String => True := by
  have hcmp : ∀ v w : String, True → True → compare v w = compare (id v) (id w) :=
    fun _ _ _ _ => rfl
  exact .of_key (fun _ _ h => (Std.LawfulEqOrd.eq_of_compare h).symm) hcmp

/-- A list with one power is sorted. -/
theorem sorted_powers (v : String) (d : Scalar) : Assoc.Sorted (powers v d) := by
  rw [powers]
  split
  · exact List.Pairwise.nil
  · exact List.pairwise_singleton _ _

/-- Adding powers keeps a list sorted. -/
theorem sorted_addPowers {xs : List (String × Scalar)} (hxs : Assoc.Sorted xs)
    (ys : List (String × Scalar)) : Assoc.Sorted (addPowers xs ys) := by
  refine List.Pairwise.filter _ ?_
  induction ys generalizing xs with
  | nil => exact hxs
  | cons y ys ih => exact ih (linearOn_string.sorted_alter (by simp) hxs trivial _)

/-- So the powers of every class are in order. -/
theorem closed_ordered : Closed Ordered where
  polylog v d l := ⟨sorted_powers v d, sorted_powers v l⟩
  exponential _ _ := ⟨.nil, .nil⟩
  mul hg _ := ⟨sorted_addPowers hg.degrees _, sorted_addPowers hg.logs _⟩
  scaled _ hg :=
    ⟨List.pairwise_map.mpr hg.degrees, List.Pairwise.filter _ (List.pairwise_map.mpr hg.logs)⟩

/-- The weight that singles out one variable. -/
def only (v u : String) : ℚ :=
  if u = v then 1 else 0

/-- Variables without weight count nothing. -/
theorem Sums.eq_zero {w : String → ℚ} {xs : List (String × Scalar)} {q : ℚ} (h : Sums w xs q)
    (hw : ∀ x ∈ xs, w x.1 = 0) : q = 0 := by
  induction h with
  | nil => rfl
  | cons hd _ ih =>
      obtain ⟨hfirst, hrest⟩ := List.forall_mem_cons.mp hw
      rw [hfirst, zero_mul, zero_add]
      exact ih hrest

/-- The weight of a single variable is its power. -/
theorem Sums.find? {v : String} {xs : List (String × Scalar)} {q : ℚ} (h : Sums (only v) xs q)
    (hxs : Assoc.Sorted xs) : ((Assoc.find? v xs).getD 0).Denotes q := by
  induction h with
  | nil => exact .exact 0
  | @cons u d xs p q hd hrest ih =>
      obtain ⟨hlater, hxs⟩ := List.pairwise_cons.mp hxs
      by_cases hu : u = v
      · subst hu
        have hzero : q = 0 := hrest.eq_zero fun x hx => by
          have hne : x.1 ≠ u := fun heq =>
            linearOn_string.irrefl (k := u) trivial (heq ▸ hlater x hx)
          rw [only, if_neg hne]
        rw [Assoc.find?_cons_of_eq d xs (linearOn_string.compare_self trivial), hzero, only,
          if_pos rfl, one_mul, add_zero]
        exact hd
      · have hne : compare v u ≠ .eq := fun heq => hu (Std.LawfulEqOrd.eq_of_compare heq).symm
        rw [Assoc.find?, if_neg (by simpa using hne), only, if_neg hu, zero_mul, zero_add]
        exact ih hxs

/-- Each power of a variable or logarithm in the second class is `r` times that
in the first. -/
structure Scales (r : ℚ) (g h : Growth) : Prop where
  degrees : ∀ v, ∃ q, (g.degreeOf v).Denotes q ∧ (h.degreeOf v).Denotes (r * q)
  logs : ∀ v, ∃ q, (g.logOf v).Denotes q ∧ (h.logOf v).Denotes (r * q)

/-- It is enough that all weights are scaled. -/
theorem Scales.of_weighs {r : ℚ} {g h : Growth} (hg : g.Ordered) (hh : h.Ordered)
    (hweighs : ∀ w, ∃ d l, Weighs w g d l ∧ Weighs w h (r * d) (r * l)) : Scales r g h where
  degrees v := by
    obtain ⟨d, l, hd, hrd⟩ := hweighs (only v)
    exact ⟨d, hd.degrees.find? hg.degrees, hrd.degrees.find? hh.degrees⟩
  logs v := by
    obtain ⟨d, l, hl, hrl⟩ := hweighs (only v)
    exact ⟨l, hl.logs.find? hg.logs, hrl.logs.find? hh.logs⟩

end Growth

/-! ## Exponential factors

An exponential factor is kept with its exponent as a polynomial, and scaling a
class leaves it alone.  So of the two ways of taking a root only the one that
multiplies exponents scales such a factor. -/

/-- A multiple that fits, and one that is `r` times as large. -/
theorem Scalar.mul_ofInt_mul_exact {c : Scalar} {k k' : ℤ} {r : ℚ} (hk : (k : ℚ) * r = k')
    (hc : (c * .ofInt k).isOverflow = false) (hc' : (c * .ofInt k').isOverflow = false) :
    c * .ofInt k * .exact r = c * .ofInt k' := by
  rcases mul_cases c (.ofInt k) with hmark | ⟨q, z, rfl, hz, hproduct⟩
  · rw [hmark] at hc
    cases hc
  · rw [ofInt_eq, exact.injEq] at hz
    subst hz
    have hdenotes : (exact q * .ofInt k').Denotes (q * k') := (Denotes.exact q).mul (.exact _)
    have hbounded := bounded_mul (exact q) (.ofInt k')
    rw [hdenotes.eq_exact hc', ← hk, ← mul_assoc] at hbounded
    rw [hproduct, hdenotes.eq_exact hc', ← hk, ← mul_assoc]
    rcases hbounded with hmark | hfits
    · cases hmark
    · exact exact_mul_exact hfits

/-- Scaling by a number other than zero goes along the terms. -/
theorem Poly.scale_of_ne (p : Poly) {c : Scalar} (hc : c.isZero = false) :
    p.scale c = .ofTerms (p.terms.map fun t => (t.1, t.2 * c)) := by
  rw [scale, hc]
  rfl

/-- A multiple of a polynomial, and one that is `r` times as large. -/
theorem Poly.scale_scale {p : Poly} {k k' : ℤ} {r : ℚ} (hr : r ≠ 0) (hk : (k : ℚ) * r = k')
    (hover : (p.scale (.ofInt k)).hasOverflow = false)
    (hover' : (p.scale (.ofInt k')).hasOverflow = false) :
    (p.scale (.ofInt k)).scale (.exact r) = p.scale (.ofInt k') := by
  have hfactor : (Scalar.exact r).isZero = false := Scalar.isZero_exact_of_ne hr
  -- scaling by zero gives the empty sum, which has no terms to compare
  by_cases hzero : k = 0
  · subst hzero
    obtain rfl : k' = 0 := by
      rw [Int.cast_zero, zero_mul] at hk
      exact_mod_cast hk.symm
    have hscale : p.scale (.ofInt 0) = zero := if_pos rfl
    rw [hscale, scale_of_ne _ hfactor]
    rfl
  · have hzero' : k' ≠ 0 := by
      rintro rfl
      rw [Int.cast_zero, mul_eq_zero, Int.cast_eq_zero] at hk
      exact hk.elim hzero hr
    rw [scale_of_ne p (Scalar.isZero_ofInt_of_ne hzero)] at hover ⊢
    rw [scale_of_ne p (Scalar.isZero_ofInt_of_ne hzero')] at hover' ⊢
    rw [scale_of_ne _ hfactor, terms, List.map_map]
    refine congrArg ofTerms ?_
    generalize p.terms = ts at hover hover'
    induction ts with
    | nil => rfl
    | cons t ts ih =>
        simp only [List.map_cons, hasOverflow, Monomial.anyOverflow,
          Bool.or_eq_false_iff] at hover hover'
        have hrest := ih hover.2 hover'.2
        have hcoefficient := Scalar.mul_ofInt_mul_exact hk hover.1.1 hover'.1.1
        rw [List.map_cons, List.map_cons, hrest, Function.comp_apply, hcoefficient]

namespace Growth

variable {vars : List String}

/-- The exponential factors of a class of factors are those of each of them, in
their order. -/
theorem exponentials_ofFactors (acc : Growth) (fs : List (Atom × ℤ)) :
    (ofFactors vars acc fs).exponentials =
      acc.exponentials ++ fs.flatMap fun f => (ofAtom vars f.2 f.1).exponentials := by
  induction fs generalizing acc with
  | nil => simp [ofFactors]
  | cons f fs ih =>
      rw [ofFactors, ih, List.flatMap_cons, ← List.append_assoc]
      rfl

/-- Logarithms have no exponential factors. -/
theorem exponentials_ofLog (g : Growth) (e : ℤ) : (ofLog g e).exponentials = [] := by
  rw [ofLog]
  split
  · split <;> rfl
  · rfl

/-- **The exponential factor of an atom** that is no extremum, and no power of
exponentials, is scaled with the exponent of the atom. -/
theorem exponentials_ofAtom {a : Atom} {k k' : ℤ} {r : ℚ} (hr : r ≠ 0) (hk : (k : ℚ) * r = k')
    (hkind : a.isExtremum = false)
    (hpower : ∀ p s, a = .power p s → (ofPoly vars p).exponentials = [])
    (hover : ∀ x ∈ (ofAtom vars k a).exponentials, x.2.hasOverflow = false)
    (hover' : ∀ x ∈ (ofAtom vars k' a).exponentials, x.2.hasOverflow = false) :
    (ofAtom vars k' a).exponentials =
      (ofAtom vars k a).exponentials.map fun x => (x.1, x.2.scale (.exact r)) := by
  -- only an exponential has an exponential factor of its own; a power has that
  -- of its base
  cases a with
  | var v =>
      rw [ofAtom, ofAtom]
      split <;> rfl
  | log p => rw [ofAtom, ofAtom, exponentials_ofLog, exponentials_ofLog]; rfl
  | exp base p =>
      rw [ofAtom, ofExp] at hover hover' ⊢
      rw [ofAtom, ofExp]
      split
      · next hgrows =>
          rw [if_pos hgrows] at hover hover'
          have hscale := Poly.scale_scale hr hk (hover _ (List.mem_singleton.mpr rfl))
            (hover' _ (List.mem_singleton.mpr rfl))
          rw [List.map_singleton, hscale]
      · rfl
  | power p s =>
      have hnone := hpower p s rfl
      simp [ofAtom, scaled, hnone]
  | min p q => cases hkind
  | max p q => cases hkind
  | unresolved t => rfl
  | unknown t => rfl

end Growth

/-! ## Roots

The two ways of taking a root are treated side by side: one scales the exponents
of a term, the other one leaves an atom for the whole power.  What is compared
are the classes of the two results.
-/

/-- Other exponents make nothing opaque. -/
theorem Atom.anyOpaque_map (times : Atom × ℤ → ℤ) (fs : List (Atom × ℤ)) :
    anyOpaque (fs.map fun f => (f.1, times f)) = anyOpaque fs := by
  induction fs with
  | nil => rfl
  | cons f fs ih => rw [List.map_cons, anyOpaque, ih, anyOpaque]

/-- Where all exponents are multiplied by `r`, and no atom is an extremum, so is
the weight. -/
theorem Atom.weigh_map (D : Atom → ℚ) {times : Atom × ℤ → ℤ} {r : ℚ} {fs : List (Atom × ℤ)}
    (htimes : ∀ f ∈ fs, (f.2 : ℚ) * r = times f) (hkinds : ∀ f ∈ fs, f.1.isExtremum = false) :
    weigh D (fs.map fun f => (f.1, times f)) = r * weigh D fs := by
  induction fs with
  | nil => exact (mul_zero r).symm
  | cons f fs ih =>
      obtain ⟨hf, hfs⟩ := List.forall_mem_cons.mp htimes
      obtain ⟨hkind, hkinds⟩ := List.forall_mem_cons.mp hkinds
      have hshare : ∀ z : ℤ, f.1.share z = z := fun z => by simp [share, hkind]
      rw [List.map_cons, weigh_cons, weigh_cons, ih hfs hkinds, hshare, hshare, ← hf]
      ring

namespace Poly

variable {m : Monomial} {e : ℚ}

/-- A single term is opaque only if its monomial is. -/
theorem hasOpaque_term (hm : m.hasOpaque = false) : (term 1 m).hasOpaque = false := by
  rw [term_eq rfl, hasOpaque, Monomial.anyOpaque, hm]
  rfl

/-- A power with an exponent that is no integer. -/
theorem powRational_term (hden : e.den ≠ 1) :
    (term 1 m).powRational (.exact e) =
      match scaleExponents? m.factors (.exact e) with
      | some fs => term 1 (.ofFactors fs)
      | none => ofAtom (.power (term 1 m) (.exact e)) := by
  have hint : (Scalar.exact e).toInt? = none := by
    simpa [Scalar.toInt?, Scalar.isInteger, Scalar.denom] using hden
  have hsingle : (term 1 m).singleTerm? = some (m, 1) := rfl
  have hone : (1 : Scalar).isOne = true := rfl
  have hzero : (term 1 m).isZero = false := rfl
  cases hscaled : scaleExponents? m.factors (.exact e) <;>
    simp [powRational, hint, hsingle, hone, hzero, hscaled]

/-- Where all exponents stay integral, each one is multiplied. -/
theorem eq_map_of_scaleExponents? {fs gs : List (Atom × ℤ)}
    (h : scaleExponents? fs (.exact e) = some gs)
    (hwords : ∀ f ∈ fs, fitsSigned 64 ((f.2 : ℚ) * e).num = true) :
    ∃ times : Atom × ℤ → ℤ, (∀ f ∈ fs, (f.2 : ℚ) * e = times f) ∧
      gs = fs.map fun f => (f.1, times f) := by
  obtain ⟨hintegers, rfl⟩ := scaleExponents?_eq_some h
  have hproduct : ∀ f ∈ fs, Scalar.ofInt f.2 * .exact e = .exact (f.2 * e) := by
    intro f hf
    rcases Scalar.mul_cases (.ofInt f.2) (.exact e) with hmark | ⟨z, e', hz, he, hvalue⟩
    · have hinteger := hintegers f hf
      rw [hmark] at hinteger
      cases hinteger
    · rw [Scalar.ofInt_eq, Scalar.exact.injEq] at hz
      rw [Scalar.exact.injEq] at he
      rw [hvalue, ← hz, ← he]
  refine ⟨fun f => ((f.2 : ℚ) * e).num, fun f hf => ?_, List.map_congr_left fun f hf => ?_⟩
  · have hinteger := hintegers f hf
    rw [hproduct f hf] at hinteger
    have hden : ((f.2 : ℚ) * e).den = 1 := by
      simpa [Scalar.isInteger, Scalar.denom] using hinteger
    exact (Rat.coe_int_num_of_den_eq_one hden).symm
  · rw [hproduct f hf]
    exact congrArg (Prod.mk f.1) (wrapSigned_of_fitsSigned (by decide) (hwords f hf))

end Poly

namespace Growth

section Roots

variable (vars : List String) {m : Monomial} (hm : m.hasOpaque = false) {e : ℚ} (hden : e.den ≠ 1)
include hm hden

/-- A power that becomes an atom has the class of the product, scaled. -/
theorem ofPoly_powRational_of_none (h : Poly.scaleExponents? m.factors (.exact e) = none) :
    ofPoly vars ((Poly.term 1 m).powRational (.exact e)) =
      constant.mul ((ofPoly vars (Poly.term 1 m)).scaled (.exact e * .ofInt 1)) := by
  have hatom : (Monomial.of (.power (Poly.term 1 m) (.exact e)) 1).hasOpaque = false := by
    rw [Monomial.of_eq _ one_ne_zero, Monomial.hasOpaque, Atom.anyOpaque, Atom.isOpaque,
      Poly.hasOpaque_term hm]
    rfl
  rw [Poly.powRational_term hden, h]
  exact ofPoly_term hatom

/-- **The second way**: the power is an atom, whose class is the scaled class of
the product. -/
theorem scales_of_none (h : Poly.scaleExponents? m.factors (.exact e) = none) :
    Scales e (ofPoly vars (Poly.term 1 m))
      (ofPoly vars ((Poly.term 1 m).powRational (.exact e))) := by
  have hordered : (ofPoly vars (Poly.term 1 m)).Ordered :=
    closed_ordered.ofPoly vars (Poly.hasOpaque_term hm)
  rw [ofPoly_powRational_of_none vars hm hden h]
  refine .of_weighs hordered
    (closed_ordered.mul closed_ordered.constant (closed_ordered.scaled _ hordered)) fun w => ?_
  obtain ⟨d, l, hweighs⟩ := Weighs.exists_weighs w (ofPoly vars (Poly.term 1 m))
  have hfactor : (Scalar.exact e * .ofInt 1).Denotes e := by
    have hproduct := (Scalar.Denotes.exact e).mul (.exact ((1 : ℤ) : ℚ))
    rwa [Int.cast_one, mul_one] at hproduct
  have hroot := (Weighs.constant w).mul (hweighs.scaled hfactor)
  rw [zero_add, zero_add] at hroot
  exact ⟨d, l, hweighs, hroot⟩

variable {times : Atom × ℤ → ℤ}
  (h : Poly.scaleExponents? m.factors (.exact e) = some (m.factors.map fun f => (f.1, times f)))
  (htimes : ∀ f ∈ m.factors, (f.2 : ℚ) * e = times f)
  (hkinds : ∀ f ∈ m.factors, f.1.isExtremum = false)
include h

/-- A power that is made factor by factor is a product again. -/
theorem ofPoly_powRational_of_some :
    (Monomial.ofFactors (m.factors.map fun f => (f.1, times f))).hasOpaque = false ∧
      ofPoly vars ((Poly.term 1 m).powRational (.exact e)) =
        ofMonomial vars (.ofFactors (m.factors.map fun f => (f.1, times f))) := by
  obtain ⟨fs⟩ := m
  have hroot : (Monomial.ofFactors (fs.map fun f => (f.1, times f))).hasOpaque = false :=
    (Atom.anyOpaque_map times fs).trans hm
  refine ⟨hroot, ?_⟩
  rw [Poly.powRational_term hden, h]
  exact ofPoly_term hroot

include htimes hkinds

/-- **The first way**: each exponent is multiplied, and each atom but an
extremum counts as often as its exponent says. -/
theorem scales_of_some :
    Scales e (ofPoly vars (Poly.term 1 m))
      (ofPoly vars ((Poly.term 1 m).powRational (.exact e))) := by
  obtain ⟨hroot, hclass⟩ := ofPoly_powRational_of_some vars hm hden h
  rw [hclass, ofPoly_term hm]
  refine .of_weighs (closed_ordered.ofMonomial vars hm) (closed_ordered.ofMonomial vars hroot)
    fun w => ?_
  obtain ⟨D, L, hweighs⟩ := exists_weighs_ofMonomial w vars
  have hscaled := hweighs (.ofFactors (m.factors.map fun f => (f.1, times f)))
  rw [Monomial.factors, Atom.weigh_map D htimes hkinds, Atom.weigh_map L htimes hkinds] at hscaled
  exact ⟨_, _, hweighs m, hscaled⟩

/-- On the first way the exponents of exponential factors are scaled, if there
are none inside of powers. -/
theorem exponentials_of_some
    (hpowers : ∀ f ∈ m.factors, ∀ q s, f.1 = .power q s → (ofPoly vars q).exponentials = [])
    (hover : ∀ x ∈ (ofPoly vars (Poly.term 1 m)).exponentials ++
        (ofPoly vars ((Poly.term 1 m).powRational (.exact e))).exponentials,
      x.2.hasOverflow = false) :
    (ofPoly vars ((Poly.term 1 m).powRational (.exact e))).exponentials =
      (ofPoly vars (Poly.term 1 m)).exponentials.map fun x => (x.1, x.2.scale (.exact e)) := by
  have hne : e ≠ 0 := by
    rintro rfl
    exact hden rfl
  rw [(ofPoly_powRational_of_some vars hm hden h).2, ofPoly_term hm] at hover ⊢
  obtain ⟨fs⟩ := m
  rw [ofMonomial, ofMonomial, exponentials_ofFactors, exponentials_ofFactors,
    List.flatMap_map] at hover ⊢
  show fs.flatMap _ = (fs.flatMap _).map _
  rw [List.map_flatMap]
  refine List.flatMap_congr fun f hf => ?_
  refine exponentials_ofAtom hne (htimes f hf) (hkinds f hf) (hpowers f hf) ?_ ?_
  · intro x hx
    exact hover x (List.mem_append_left _ (List.mem_flatMap.mpr ⟨f, hf, hx⟩))
  · intro x hx
    exact hover x (List.mem_append_right _ (List.mem_flatMap.mpr ⟨f, hf, hx⟩))

end Roots

/-- **The class of a root.**  Each power of a variable and of a logarithm is
multiplied by the exponent, be the power an atom of its own or made factor by
factor.  In the first case exponential factors stay as they are; in the second
one they are scaled, unless they stand inside of a power.  It leaves out
extrema, numbers that overflow, and exponents that do not fit their word. -/
theorem ofPoly_powRational (vars : List String) {m : Monomial} (hm : m.hasOpaque = false) {e : ℚ}
    (hden : e.den ≠ 1) :
    let p := Poly.term 1 m
    let g := ofPoly vars p
    let h := ofPoly vars (p.powRational (.exact e))
    (Poly.scaleExponents? m.factors (.exact e) = none →
      Scales e g h ∧ h.exponentials = g.exponentials) ∧
    ∀ fs, Poly.scaleExponents? m.factors (.exact e) = some fs →
      (∀ f ∈ m.factors, f.1.isExtremum = false ∧ fitsSigned 64 ((f.2 : ℚ) * e).num = true) →
      Scales e g h ∧
      ((∀ f ∈ m.factors, ∀ q s, f.1 = .power q s → (ofPoly vars q).exponentials = []) →
        (∀ x ∈ g.exponentials ++ h.exponentials, x.2.hasOverflow = false) →
        h.exponentials = g.exponentials.map fun x => (x.1, x.2.scale (.exact e))) := by
  refine ⟨fun hkept => ⟨scales_of_none vars hm hden hkept, ?_⟩, fun fs hscaled hall => ?_⟩
  · rw [ofPoly_powRational_of_none vars hm hden hkept]
    rfl
  · have hkinds : ∀ f ∈ m.factors, f.1.isExtremum = false := fun f hf => (hall f hf).1
    obtain ⟨times, htimes, rfl⟩ := Poly.eq_map_of_scaleExponents? hscaled fun f hf => (hall f hf).2
    exact ⟨scales_of_some vars hm hden hscaled htimes hkinds,
      exponentials_of_some vars hm hden hscaled htimes hkinds⟩

/-- `n ^ 4 · log n ^ 2 · (2 ^ n) ^ 2`. -/
def squareProduct : Monomial :=
  .ofFactors [(.var "n", 4), (.log (Poly.var "n"), 2), (.exp 2 (Poly.var "n"), 2)]

/-- The square root of a product of squares is made factor by factor; the power
`3 / 4` is not, as the logarithm and the exponential would get halves. -/
theorem ofPoly_powRational_squares :
    let g := ofPoly ["n"] (Poly.term 1 squareProduct)
    let h := ofPoly ["n"] ((Poly.term 1 squareProduct).powRational (.exact (1 / 2)))
    let h' := ofPoly ["n"] ((Poly.term 1 squareProduct).powRational (.exact (3 / 4)))
    Scales (1 / 2) g h ∧ g.degreeOf "n" = 4 ∧ h.degreeOf "n" = 2 ∧
      h.exponentials = g.exponentials.map (fun x => (x.1, x.2.scale (.exact (1 / 2)))) ∧
      h.text = "n^2·2^n log n" ∧ Scales (3 / 4) g h' ∧ h'.text = "n^3·2^(2*n) log^(3/2) n" := by
  -- half of each exponent is integral
  have hscaled : Poly.scaleExponents? squareProduct.factors (.exact (1 / 2)) =
      some [(.var "n", 2), (.log (Poly.var "n"), 1), (.exp 2 (Poly.var "n"), 1)] := by
    have hfour : (Scalar.ofInt 4 * .exact (1 / 2)).toInt? = some 2 := by decide +kernel
    have htwo : (Scalar.ofInt 2 * .exact (1 / 2)).toInt? = some 1 := by decide +kernel
    simp [-one_div, Poly.scaleExponents?, squareProduct, Monomial.factors, hfour, htwo, wrapSigned,
      twoTo]
  have hhalf := (ofPoly_powRational ["n"] (m := squareProduct) (e := 1 / 2) (by decide +kernel)
    (by decide +kernel)).2 _ hscaled
    (by simp [squareProduct, Monomial.factors, Atom.isExtremum]; decide +kernel)
  -- three quarters of two are not
  have hunscaled : Poly.scaleExponents? squareProduct.factors (.exact (3 / 4)) = none := by
    have hfour : (Scalar.ofInt 4 * .exact (3 / 4)).toInt? = some 3 := by decide +kernel
    have htwo : (Scalar.ofInt 2 * .exact (3 / 4)).toInt? = none := by decide +kernel
    simp [Poly.scaleExponents?, squareProduct, Monomial.factors, hfour, htwo]
  have hkept := (ofPoly_powRational ["n"] (m := squareProduct) (e := 3 / 4) (by decide +kernel)
    (by decide +kernel)).1 hunscaled
  have hpowers : ∀ f ∈ squareProduct.factors, ∀ q s, f.1 = .power q s →
      (ofPoly ["n"] q).exponentials = [] := by
    simp [squareProduct, Monomial.factors]
  exact ⟨hhalf.1, by decide +kernel, by decide +kernel,
    hhalf.2 hpowers (by decide +kernel), by decide +kernel, hkept.1, by decide +kernel⟩

/-- The square root of `2 ^ n` has the class `2 ^ n`, where the exponent should
be halved. -/
theorem ofPoly_powRational_exponential :
    let m := Monomial.of (.exp 2 (Poly.var "n")) 1
    let g := ofPoly ["n"] (Poly.term 1 m)
    let h := ofPoly ["n"] ((Poly.term 1 m).powRational (.exact (1 / 2)))
    m.hasOpaque = false ∧ g.text = "2^n" ∧ h.text = "2^n" ∧
      h.exponentials ≠ g.exponentials.map fun x => (x.1, x.2.scale (.exact (1 / 2))) := by
  refine ⟨by decide +kernel, by decide +kernel, by decide +kernel, fun heq => ?_⟩
  have htexts := congrArg (List.map fun x => x.2.compactText) heq
  revert htexts
  decide +kernel

end Growth

end CostAnalysis
