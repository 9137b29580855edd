import CostAnalysis.Cost.Solution
import CostAnalysis.Proofs.Formula.ClosedForm
import CostAnalysis.Proofs.Formula.Read
import CostAnalysis.Proofs.Poly.Formed
import CostAnalysis.Proofs.Simplification

/-!
# Where a result degrades silently

A solution without notes is called exact.  One would expect that its closed
forms then hold no opaque fragment, but two operations leave one and no note: a
division by zero, and a symbolic power of anything but a constant that is not
negative (`Solution.exact_hasOpaque_symbolicPower`).

These are the only ones.  `Formula.isDefined` says of a formula that neither
occurs in it, and for texts of such formulas an exact solution holds no fragment
(`Solution.not_hasOpaque_of_exact`): every other fragment, be it one of the
text, a summation without a closed form or a coefficient that overflowed, comes
with a note.

The proof carries `Poly.Formed` through the reduction of a formula, for as long
as there are no notes.  It starts from the numbers of the text, whose parts fit
their words as those of everything that can be read.
-/

namespace CostAnalysis.Formula

/-! ## Formulas whose numbers are bounded

The numbers of a formula are folded as it is built, so a bound on the numbers of
a text is not enough: every constructor has to keep it, the mark of an overflow
included. -/

/-- Every number is the mark of an overflow or one whose parts fit their words,
and no part is in closed form yet. -/
inductive Bounded : Formula → Prop
  | num {v : Scalar} (hv : v.Bounded) : Bounded (.num v)
  | var (name : String) : Bounded (.var name)
  | unknown (t : String) : Bounded (.unknown t)
  | plus {ts : List Formula} (hts : ∀ e ∈ ts, Bounded e) : Bounded (.plus ts)
  | times {fs : List Formula} (hfs : ∀ e ∈ fs, Bounded e) : Bounded (.times fs)
  | quotient {a b : Formula} (ha : Bounded a) (hb : Bounded b) : Bounded (.over a b)
  | raised {a b : Formula} (ha : Bounded a) (hb : Bounded b) : Bounded (.raised a b)
  | minus {a : Formula} (ha : Bounded a) : Bounded (.minus a)
  | logOf {a : Formula} (ha : Bounded a) : Bounded (.logOf a)
  | minOf {a b : Formula} (ha : Bounded a) (hb : Bounded b) : Bounded (.minOf a b)
  | maxOf {a b : Formula} (ha : Bounded a) (hb : Bounded b) : Bounded (.maxOf a b)
  | sumOver {body start stop : Formula} {index : String} (hbody : Bounded body)
      (hstart : Bounded start) (hstop : Bounded stop) : Bounded (.sumOver body index start stop)

namespace Bounded

variable {a b : Formula}

theorem zero : Bounded Formula.zero := .num Scalar.zero_fits.bounded

theorem one : Bounded Formula.one := .num Scalar.one_fits.bounded

/-- The number that a formula is is bounded. -/
theorem bounded_asNum? (ha : Bounded a) {v : Scalar} (hv : a.asNum? = some v) : v.Bounded := by
  cases ha with
  | num h =>
      cases hv
      exact h
  | _ => cases hv

/-- The addends of a bounded formula are bounded. -/
theorem of_mem_addends (ha : Bounded a) : ∀ e ∈ a.addends, Bounded e := by
  intro e he
  cases ha with
  | plus hts => exact hts e he
  | _ =>
      cases List.mem_singleton.mp he
      constructor <;> assumption

theorem of_mem_multiplicands (ha : Bounded a) : ∀ e ∈ a.multiplicands, Bounded e := by
  intro e he
  cases ha with
  | times hfs => exact hfs e he
  | _ =>
      cases List.mem_singleton.mp he
      constructor <;> assumption

/-- Sums of bounded formulas are bounded. -/
theorem sumOf {ts : List Formula} (h : ∀ e ∈ ts, Bounded e) : Bounded (Formula.sumOf ts) := by
  match ts with
  | [] => exact zero
  | [t] => exact h t List.mem_cons_self
  | _ :: _ :: _ => exact .plus h

theorem productOf {fs : List Formula} (h : ∀ e ∈ fs, Bounded e) :
    Bounded (Formula.productOf fs) := by
  match fs with
  | [] => exact .times h
  | [f] => exact h f List.mem_cons_self
  | _ :: _ :: _ => exact .times h

/-- Adding folds numbers, and the sum of two is a scalar again. -/
theorem add (ha : Bounded a) (hb : Bounded b) : Bounded (a.add b) := by
  obtain ⟨⟨total, kept⟩, habsorb⟩ : ∃ r, absorb Scalar.add? 0 (a.addends ++ b.addends) = r :=
    ⟨_, rfl⟩
  have htotal : total.Bounded :=
    of_absorb habsorb (fun h => (Scalar.Fits.of_add? h).bounded) Scalar.zero_fits.bounded
  have hkept : ∀ e ∈ kept, Bounded e := fun e he =>
    (List.mem_append.mp (mem_of_mem_absorb habsorb he)).elim (ha.of_mem_addends e)
      (hb.of_mem_addends e)
  rw [add_eq_sumOf habsorb]
  refine sumOf ?_
  split
  · exact hkept
  · exact List.forall_mem_append.mpr ⟨hkept, by simpa using .num htotal⟩

theorem mul (ha : Bounded a) (hb : Bounded b) : Bounded (a.mul b) := by
  obtain ⟨⟨total, kept⟩, habsorb⟩ :
      ∃ r, absorb Scalar.mul? 1 (a.multiplicands ++ b.multiplicands) = r := ⟨_, rfl⟩
  have htotal : total.Bounded :=
    of_absorb habsorb (fun h => (Scalar.Fits.of_mul? h).bounded) Scalar.one_fits.bounded
  have hkept : ∀ e ∈ kept, Bounded e := fun e he =>
    (List.mem_append.mp (mem_of_mem_absorb habsorb he)).elim (ha.of_mem_multiplicands e)
      (hb.of_mem_multiplicands e)
  rw [mul_eq_productOf habsorb]
  split
  · exact zero
  · refine productOf ?_
    split
    · exact List.forall_mem_cons.mpr ⟨.num htotal, hkept⟩
    · exact hkept

theorem neg (ha : Bounded a) : Bounded a.neg := by
  cases ha with
  | num hv =>
      rw [Formula.neg]
      split
      · exact .minus (.num hv)
      · exact .num hv.neg
  | minus ha => exact ha
  | _ => exact .minus (by constructor <;> assumption)

/-- A quotient of numbers is folded, also by zero. -/
theorem div (ha : Bounded a) (hb : Bounded b) : Bounded (a.div b) := by
  rw [Formula.div]
  split
  · exact ha
  · split
    · split
      · next q hq =>
          obtain ⟨r, -, rfl⟩ := Option.map_eq_some_iff.mp hq
          exact .num (Scalar.bounded_mul _ _)
      · exact .quotient ha hb
    · exact .quotient ha hb

theorem pow (ha : Bounded a) (hb : Bounded b) : Bounded (a.pow b) := by
  rw [Formula.pow]
  split
  · exact ha
  · split
    · exact one
    · exact .raised ha hb

/-- The smaller of two numbers is one of them. -/
theorem min (ha : Bounded a) (hb : Bounded b) : Bounded (a.min b) := by
  rw [Formula.min]
  split
  · exact zero
  · split
    · exact ha
    · split
      · next x y hx hy =>
          refine .num ?_
          rcases Scalar.least_eq x y with h | h
          · rw [h]
            exact ha.bounded_asNum? hx
          · rw [h]
            exact hb.bounded_asNum? hy
      · exact .minOf ha hb

theorem max (ha : Bounded a) (hb : Bounded b) : Bounded (a.max b) := by
  rw [Formula.max]
  split
  · exact hb
  · split
    · exact ha
    · split
      · next x y hx hy =>
          refine .num ?_
          rcases Scalar.greatest_eq x y with h | h
          · rw [h]
            exact ha.bounded_asNum? hx
          · rw [h]
            exact hb.bounded_asNum? hy
      · exact .maxOf ha hb

theorem sum {body start stop : Formula} {index : String} (hbody : Bounded body)
    (hstart : Bounded start) (hstop : Bounded stop) : Bounded (body.sum index start stop) := by
  rw [Formula.sum]
  split
  · exact zero
  · exact .sumOver hbody hstart hstop

/-- Every formula that can be read is bounded. -/
theorem built : Built Bounded where
  num hv := .num hv.bounded
  var _ := .var _
  unknown := .unknown
  add := add
  neg := neg
  mul := mul
  div := div
  pow := pow
  log := .logOf
  min := min
  max := max
  sum hbody _ hstart hstop := sum hbody hstart hstop

end Bounded

/-! ## Defined formulas -/

mutual

/-- Whether no part is divided by one whose closed form is zero, and all parts
that are raised to a symbolic exponent are constants that are not negative. -/
def isDefined : Formula → Bool
  | .num _ => true
  | .var _ => true
  | .unknown _ => true
  | .resolved _ => true
  | .plus ts => allDefined ts
  | .times fs => allDefined fs
  | .over a b => isDefined a && isDefined b && !b.simplify.poly.isZero
  | .raised a b =>
    isDefined a && isDefined b &&
      (b.simplify.poly.asConstant?.isSome || a.simplify.poly.asConstant?.any (!·.isNegative))
  | .minus a => isDefined a
  | .logOf a => isDefined a
  | .minOf a b => isDefined a && isDefined b
  | .maxOf a b => isDefined a && isDefined b
  | .sumOver body _ start stop => isDefined body && isDefined start && isDefined stop
termination_by structural e => e

/-- Whether all formulas of a list are defined. -/
def allDefined : List Formula → Bool
  | [] => true
  | e :: es => isDefined e && allDefined es
termination_by structural es => es

end

/-- Each formula of a defined list is defined. -/
theorem isDefined_of_mem {es : List Formula} (h : allDefined es = true) :
    ∀ e ∈ es, e.isDefined = true := by
  induction es with
  | nil => simp
  | cons e es ih =>
      rw [allDefined, Bool.and_eq_true] at h
      exact List.forall_mem_cons.mpr ⟨h.1, ih h.2⟩

/-! ## Powers

A power of a product multiplies exponents and narrows them, and a factor may get
the exponent zero in this way.  Which powers are concerned can be read off the
closed form of the base, so it is a condition on the formula
(`keepsFactors`). -/

mutual

/-- The bases and exponents of all powers in a formula. -/
def powers : Formula → List (Formula × Formula)
  | .num _ => []
  | .var _ => []
  | .unknown _ => []
  | .resolved _ => []
  | .plus ts => allPowers ts
  | .times fs => allPowers fs
  | .over a b => powers a ++ powers b
  | .raised a b => (a, b) :: (powers a ++ powers b)
  | .minus a => powers a
  | .logOf a => powers a
  | .minOf a b => powers a ++ powers b
  | .maxOf a b => powers a ++ powers b
  | .sumOver body _ start stop => powers body ++ powers start ++ powers stop
termination_by structural e => e

/-- The powers in a list of formulas. -/
def allPowers : List Formula → List (Formula × Formula)
  | [] => []
  | e :: es => powers e ++ allPowers es
termination_by structural es => es

end

/-- Whether the power of a base keeps the factors of the base's closed form. -/
def powerKeepsFactors (t : Formula × Formula) : Bool :=
  !t.2.simplify.poly.asConstant?.any t.1.simplify.poly.losesFactor

/-- Whether all powers in a formula keep the factors of their bases. -/
def keepsFactors (e : Formula) : Bool :=
  e.powers.all powerKeepsFactors

/-- Each formula of a list keeps the factors that the list keeps. -/
theorem keepsFactors_of_mem {es : List Formula} (h : (allPowers es).all powerKeepsFactors = true) :
    ∀ e ∈ es, e.keepsFactors = true := by
  induction es with
  | nil => simp
  | cons e es ih =>
      rw [allPowers, List.all_append, Bool.and_eq_true] at h
      exact List.forall_mem_cons.mpr ⟨h.1, ih h.2⟩

/-! ## Reduction

By induction over formulas whose numbers are bounded.  A node without notes has
parts without notes, and its polynomial is made from theirs by an operation that
keeps `Poly.Formed`; that it is kept with the parameters at hand is where the
conditions on divisions and powers are used. -/

/-- The polynomial of a defined formula is in order and has fragments and
factors with the exponent zero only where they are allowed, or there is a
note. -/
def FormedBy (fragments zeros : Prop) (e : Formula) : Prop :=
  ∀ levels depth, (¬ fragments → (reduce levels depth e).notes = []) →
    (reduce levels depth e).poly.Formed fragments zeros

variable {fragments zeros : Prop}

/-- A coefficient that overflowed leaves a fragment and a note. -/
theorem formed_guardOverflow {e : Formula} {r : Simplified}
    (hnotes : ¬ fragments → (guardOverflow e r).notes = [])
    (hr : (¬ fragments → r.notes = []) → r.poly.Formed fragments zeros) :
    (guardOverflow e r).poly.Formed fragments zeros := by
  by_cases hfragments : fragments
  · rw [guardOverflow]
    split
    · exact Poly.formed_unknown hfragments _
    · exact hr fun h => absurd hfragments h
  · obtain ⟨heq, hnone, -⟩ := guardOverflow_of_notes (hnotes hfragments)
    rw [heq]
    exact hr fun _ => hnone

namespace FormedBy

variable {a b : Formula}

/-- Both operands of an operation have no notes if the operation has none. -/
theorem combine (ha : FormedBy fragments zeros a) (hb : FormedBy fragments zeros b)
    {onPoly : Poly → Poly → Poly} {onFormula : Formula → Formula → Formula} {levels depth : ℕ}
    {e : Formula}
    (hop : a.simplify.poly.Formed fragments zeros → b.simplify.poly.Formed fragments zeros →
      (onPoly a.simplify.poly b.simplify.poly).Formed fragments zeros)
    (hnotes : ¬ fragments → (guardOverflow e (Formula.combine onPoly onFormula
      (reduce levels depth a) (reduce levels depth b))).notes = []) :
    (guardOverflow e (Formula.combine onPoly onFormula (reduce levels depth a)
      (reduce levels depth b))).poly.Formed fragments zeros := by
  refine formed_guardOverflow hnotes fun hnotes => ?_
  have hpa := ha levels depth fun h => (List.append_eq_nil_iff.mp (hnotes h)).1
  have hpb := hb levels depth fun h => (List.append_eq_nil_iff.mp (hnotes h)).2
  simp only [Formula.combine, poly_reduce_eq_simplify] at hpa hpb ⊢
  exact hop hpa hpb

/-- A sum is reduced addend by addend. -/
theorem plus {ts : List Formula} (hts : ∀ e ∈ ts, FormedBy fragments zeros e) :
    FormedBy fragments zeros (.plus ts) := by
  intro levels depth hguard
  refine formed_guardOverflow hguard fun hnotes => ?_
  have hloop : ∀ acc : Simplified, acc.poly.Formed fragments zeros →
      (¬ fragments → (reduceSum levels depth acc ts).notes = []) →
      (reduceSum levels depth acc ts).poly.Formed fragments zeros := by
    clear hguard hnotes
    induction ts with
    | nil => exact fun acc hacc _ => hacc
    | cons e es ih =>
        intro acc hacc hnotes
        obtain ⟨he, hes⟩ := List.forall_mem_cons.mp hts
        rw [reduceSum] at hnotes ⊢
        have hfirst := he levels depth fun h =>
          (List.append_eq_nil_iff.mp (notes_of_reduceSum (hnotes h))).2
        exact ih hes _ (hacc.add hfirst) hnotes
  exact hloop _ Poly.formed_zero hnotes

/-- A product factor by factor. -/
theorem times {fs : List Formula} (hfs : ∀ e ∈ fs, FormedBy fragments zeros e) :
    FormedBy fragments zeros (.times fs) := by
  intro levels depth hguard
  refine formed_guardOverflow hguard fun hnotes => ?_
  have hloop : ∀ acc : Simplified, acc.poly.Formed fragments zeros →
      (¬ fragments → (reduceProduct levels depth acc fs).notes = []) →
      (reduceProduct levels depth acc fs).poly.Formed fragments zeros := by
    clear hguard hnotes
    induction fs with
    | nil => exact fun acc hacc _ => hacc
    | cons e es ih =>
        intro acc hacc hnotes
        obtain ⟨he, hes⟩ := List.forall_mem_cons.mp hfs
        rw [reduceProduct] at hnotes ⊢
        have hfirst := he levels depth fun h =>
          (List.append_eq_nil_iff.mp (notes_of_reduceProduct (hnotes h))).2
        exact ih hes _ (hacc.mul hfirst) hnotes
  exact hloop _ Poly.formed_one hnotes

/-- A summation is reduced term by term, and a term that is left over is
noted. -/
theorem sumOver {body start stop : Formula} {index : String} (hbody : FormedBy fragments zeros body)
    (hstart : FormedBy fragments zeros start) (hstop : FormedBy fragments zeros stop) :
    FormedBy fragments zeros (.sumOver body index start stop) := by
  intro levels depth hguard
  refine formed_guardOverflow hguard fun hnotes => ?_
  rw [poly_resolveSum]
  -- a sum that overflowed lists no unresolved terms, but then there is a note
  -- on the overflow
  have hparts : ¬ fragments → ((reduce levels (depth + 1) body).notes = [] ∧
      (reduce levels depth start).notes = [] ∧ (reduce levels depth stop).notes = []) ∧
      ((reduce levels (depth + 1) body).poly.sumOver index (reduce levels depth start).poly
        (reduce levels depth stop).poly).unresolved = [] := by
    intro h
    have hexact := (guardOverflow_of_notes (hguard h)).2.2
    rw [poly_resolveSum] at hexact
    have hnone := hnotes h
    simp only [resolveSum, hexact, Bool.false_eq_true, if_false, List.append_eq_nil_iff,
      List.map_eq_nil_iff] at hnone
    exact ⟨⟨hnone.1.1.1, hnone.1.1.2, hnone.1.2⟩, hnone.2⟩
  exact (hbody levels (depth + 1) fun h => (hparts h).1.1).sumOver
    (hstart levels depth fun h => (hparts h).1.2.1) (hstop levels depth fun h => (hparts h).1.2.2)
    fun h => (hparts h).2

end FormedBy

/-- **The reduction of a bounded formula.**  Unless fragments are allowed the
formula has to be defined, and unless factors with the exponent zero are, its
powers have to keep their factors. -/
theorem Bounded.formedBy {e : Formula} (he : e.Bounded)
    (hdefined : ¬ fragments → e.isDefined = true) (hkeeps : ¬ zeros → e.keepsFactors = true) :
    e.FormedBy fragments zeros := by
  induction he with
  | num hv =>
      intro levels depth hnotes
      exact formed_guardOverflow hnotes fun _ => Poly.formed_constant hv
  | var name => exact fun levels depth _ => Poly.formed_ofAtom (a := .var name) trivial
  | unknown t =>
      intro levels depth hnotes
      -- a fragment of the text is noted itself
      refine Poly.formed_ofAtom (a := .unknown t) ?_
      by_contra h
      exact List.cons_ne_nil _ _ (hnotes h)
  | plus _ ih =>
      exact .plus fun e he => ih e he (fun h => isDefined_of_mem (hdefined h) e he)
        fun h => keepsFactors_of_mem (hkeeps h) e he
  | times _ ih =>
      exact .times fun e he => ih e he (fun h => isDefined_of_mem (hdefined h) e he)
        fun h => keepsFactors_of_mem (hkeeps h) e he
  | quotient _ _ iha ihb =>
      simp only [isDefined, Bool.and_eq_true, Bool.not_eq_true'] at hdefined
      simp only [keepsFactors, powers, List.all_append, Bool.and_eq_true] at hkeeps
      intro levels depth
      exact (iha (fun h => (hdefined h).1.1) fun h => (hkeeps h).1).combine
        (ihb (fun h => (hdefined h).1.2) fun h => (hkeeps h).2)
        -- the divisor is not zero, as the formula is defined
        fun hp hq => hp.div hq fun h => (hdefined h).2
  | raised _ _ iha ihb =>
      simp only [isDefined, Bool.and_eq_true, Bool.or_eq_true] at hdefined
      simp only [keepsFactors, powers, List.all_cons, List.all_append, Bool.and_eq_true,
        powerKeepsFactors, Bool.not_eq_true'] at hkeeps
      intro levels depth
      exact (iha (fun h => (hdefined h).1.1) fun h => (hkeeps h).2.1).combine
        (ihb (fun h => (hdefined h).1.2) fun h => (hkeeps h).2.2)
        -- here both conditions are used: the power is one of the known ones,
        -- and it loses no factor
        fun hp hq => hp.power hq (fun h => (hdefined h).2) fun h => (hkeeps h).1
  | minus _ ih =>
      intro levels depth hnotes
      exact formed_guardOverflow hnotes fun hnotes => (ih hdefined hkeeps levels depth hnotes).neg
  | logOf _ ih =>
      intro levels depth hnotes
      exact formed_guardOverflow hnotes fun hnotes =>
        Poly.formed_log _ (ih hdefined hkeeps levels depth hnotes)
  | minOf _ _ iha ihb | maxOf _ _ iha ihb =>
      simp only [isDefined, Bool.and_eq_true] at hdefined
      simp only [keepsFactors, powers, List.all_append, Bool.and_eq_true] at hkeeps
      intro levels depth
      exact (iha (fun h => (hdefined h).1) fun h => (hkeeps h).1).combine
        (ihb (fun h => (hdefined h).2) fun h => (hkeeps h).2)
        fun hp hq => hp.extremum hq _ fun _ _ h h' => ⟨h, h'⟩
  | sumOver _ _ _ ihbody ihstart ihstop =>
      simp only [isDefined, Bool.and_eq_true] at hdefined
      simp only [keepsFactors, powers, List.all_append, Bool.and_eq_true] at hkeeps
      exact .sumOver (ihbody (fun h => (hdefined h).1.1) fun h => (hkeeps h).1.1)
        (ihstart (fun h => (hdefined h).1.2) fun h => (hkeeps h).1.2)
        (ihstop (fun h => (hdefined h).2) fun h => (hkeeps h).2)

end CostAnalysis.Formula

namespace CostAnalysis

/-! ## Solutions

A text is solved by the closed forms of its best, average and worst case, and an
exact solution has notes in none of them. -/

namespace CaseSolution

/-- The closed form of a defined formula has a fragment only if there is a
note. -/
theorem hasOpaque_ofText {text : String} (hnotes : (ofText text).notes = [])
    (hdefined : (Formula.readLenient text).1.isDefined = true) :
    (ofText text).poly.hasOpaque = false := by
  have hreduced := Note.logOf_eq_nil (Note.recordAll_eq_nil hnotes).2
  have hbounded : (Formula.readLenient text).1.Bounded := Formula.Bounded.built.of_readLenient text
  have hformed : (Formula.readLenient text).1.FormedBy False True :=
    hbounded.formedBy (fun _ => hdefined) fun h => absurd trivial h
  exact (hformed _ _ fun _ => hreduced).hasOpaque

end CaseSolution

namespace Solution

/-- An exact solution has no note in any of its cases. -/
theorem notes_of_exact {s : Solution} (h : s.confidence = .exact) :
    s.best.notes = [] ∧ s.average.notes = [] ∧ s.worst.notes = [] := by
  have hnotes : s.notes = [] := by
    rw [confidence, Note.confidence] at h
    split at h
    · next hempty => exact List.isEmpty_iff.mp hempty
    · cases h
  obtain ⟨hfirst, hworst⟩ := List.append_eq_nil_iff.mp (Note.logOf_eq_nil hnotes)
  obtain ⟨hbest, haverage⟩ := List.append_eq_nil_iff.mp hfirst
  exact ⟨hbest, haverage, hworst⟩

/-- **An exact solution holds no opaque fragment**, at any depth and in no case,
if the formulas that were solved contain no division by zero and no symbolic
power of anything but a constant that is not negative. -/
theorem not_hasOpaque_of_exact {best average worst : String}
    (hexact : (ofTexts best average worst).confidence = .exact)
    (hdefined : ∀ text ∈ [best, average, worst], (Formula.readLenient text).1.isDefined = true) :
    (ofTexts best average worst).best.poly.hasOpaque = false ∧
      (ofTexts best average worst).average.poly.hasOpaque = false ∧
      (ofTexts best average worst).worst.poly.hasOpaque = false := by
  obtain ⟨hbest, haverage, hworst⟩ := notes_of_exact hexact
  exact ⟨CaseSolution.hasOpaque_ofText hbest (hdefined best (by simp)),
    CaseSolution.hasOpaque_ofText haverage (hdefined average (by simp)),
    CaseSolution.hasOpaque_ofText hworst (hdefined worst (by simp))⟩

/-- A quotient of a logarithm, a geometric sum and an extremum: exact, defined,
and without a fragment. -/
theorem not_hasOpaque_of_exact_geometricSum :
    (ofTexts "log(n)/m" "Sum(2**i, (i, 0, n))" "Max(n**3, 2**n)").confidence = .exact ∧
      (∀ text ∈ ["log(n)/m", "Sum(2**i, (i, 0, n))", "Max(n**3, 2**n)"],
        (Formula.readLenient text).1.isDefined = true) ∧
      (ofTexts "log(n)/m" "Sum(2**i, (i, 0, n))" "Max(n**3, 2**n)").average.poly.hasOpaque =
        false := by
  have hexact : (ofTexts "log(n)/m" "Sum(2**i, (i, 0, n))" "Max(n**3, 2**n)").confidence =
      .exact := by
    decide +kernel
  have hdefined : ∀ text ∈ ["log(n)/m", "Sum(2**i, (i, 0, n))", "Max(n**3, 2**n)"],
      (Formula.readLenient text).1.isDefined = true := by
    decide +kernel
  exact ⟨hexact, hdefined, (not_hasOpaque_of_exact hexact hdefined).2.1⟩

/-- A symbolic power of a variable is not defined, and nothing says so: the
solution is called exact although its closed form is nothing but a fragment. -/
theorem exact_hasOpaque_symbolicPower :
    (ofTexts "n**n" "n**n" "n**n").confidence = .exact ∧
      (ofTexts "n**n" "n**n" "n**n").best.poly.hasOpaque = true ∧
      (Formula.readLenient "n**n").1.isDefined = false := by
  decide +kernel

end Solution

end CostAnalysis
