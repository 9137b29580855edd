import CostAnalysis.Algebra.Formula.Reader
import CostAnalysis.Proofs.Equality
import CostAnalysis.Proofs.Exactness
import CostAnalysis.Proofs.Formula.Arithmetic

/-!
# Formulas with their summations resolved

Beside the closed form, simplification rebuilds the formula with every summation
replaced by its value.  The two are made by different means: polynomials by the
ring operations, the formula by constructors that fold numbers and drop what a
zero makes vanish.

What is shown here is that nothing gets lost on the way.  The resolved formula
holds no summation (`sumDepth_substituted`), and where it can be simplified
without a note at all, it has the closed form of the formula
(`poly_simplify_substituted`).

**What carries the argument.**  A resolved formula *carries* a Laurent
polynomial (`Carries`): as far as its parts are reduced without a note, the
formula is in order and has this polynomial.  The constructors keep that, also a
product that is folded to zero and has lost its factors, notes and all: a factor
that made it vanish is not hidden inside of another product (`Solid`), and so it
is one of the two operands.

**What is asked of the exponents.**  Resolving may put the factors of one
product into another one.  There an exponent can be clamped on the way that was
not before, without a note (`poly_simplify_substituted_clampedPower`), so the
exponents have to fit their words.
-/

namespace CostAnalysis.Formula

variable {a b e : Formula} {ts fs : List Formula} {levels depth : ℕ}

/-! ## No summation is left

The constructors put operands together and fold numbers, and neither makes a
summation.  A summation itself is replaced by its closed form, as a node of its
own. -/

/-- To hold no summation is a property of operands. -/
theorem operandwise_sumDepth : Operandwise fun e => e.sumDepth = 0 where
  plus := sumDepthList_eq_zero_iff
  times := sumDepthList_eq_zero_iff
  minus := Iff.rfl
  num _ := rfl

/-- Quotients of such formulas hold none. -/
theorem sumDepth_div (ha : a.sumDepth = 0) (hb : b.sumDepth = 0) : (a.div b).sumDepth = 0 := by
  have hover : (Formula.over a b).sumDepth = 0 := Nat.max_eq_zero_iff.mpr ⟨ha, hb⟩
  rw [div]
  split
  · exact ha
  · split
    · split
      · rfl
      · exact hover
    · exact hover

theorem sumDepth_pow (ha : a.sumDepth = 0) (hb : b.sumDepth = 0) : (a.pow b).sumDepth = 0 := by
  rw [pow]
  split
  · exact ha
  · split
    · rfl
    · exact Nat.max_eq_zero_iff.mpr ⟨ha, hb⟩

theorem sumDepth_min (ha : a.sumDepth = 0) (hb : b.sumDepth = 0) : (a.min b).sumDepth = 0 := by
  have hmin : (minOf a b).sumDepth = 0 := Nat.max_eq_zero_iff.mpr ⟨ha, hb⟩
  rw [min]
  split
  · rfl
  · split
    · exact ha
    · split
      · rfl
      · exact hmin

theorem sumDepth_max (ha : a.sumDepth = 0) (hb : b.sumDepth = 0) : (a.max b).sumDepth = 0 := by
  have hmax : (maxOf a b).sumDepth = 0 := Nat.max_eq_zero_iff.mpr ⟨ha, hb⟩
  rw [max]
  split
  · exact hb
  · split
    · exact ha
    · split
      · rfl
      · exact hmax

/-- What is quoted for an overflow holds none. -/
theorem sumDepth_guardOverflow {r : Simplified} (hr : r.substituted.sumDepth = 0) :
    (guardOverflow e r).substituted.sumDepth = 0 := by
  rw [guardOverflow]
  split
  · rfl
  · exact hr

mutual

/-- **Every node is rebuilt without summations**, since a summation becomes a
value, or zero where its value overflowed. -/
theorem sumDepth_reduce (levels depth : ℕ) : ∀ e : Formula,
    (reduce levels depth e).substituted.sumDepth = 0
  | .num _ => sumDepth_guardOverflow rfl
  | .var _ => rfl
  | .resolved _ => sumDepth_guardOverflow rfl
  | .unknown _ => rfl
  | .plus ts => sumDepth_guardOverflow (sumDepth_reduceSum levels depth ts _ rfl)
  | .times fs => sumDepth_guardOverflow (sumDepth_reduceProduct levels depth fs _ rfl)
  | .over a b => sumDepth_guardOverflow
      (sumDepth_div (sumDepth_reduce levels depth a) (sumDepth_reduce levels depth b))
  | .raised a b => sumDepth_guardOverflow
      (sumDepth_pow (sumDepth_reduce levels depth a) (sumDepth_reduce levels depth b))
  | .minus a => sumDepth_guardOverflow
      (operandwise_sumDepth.neg_iff.mpr (sumDepth_reduce levels depth a))
  | .logOf a => sumDepth_guardOverflow (sumDepth_reduce levels depth a)
  | .minOf a b => sumDepth_guardOverflow
      (sumDepth_min (sumDepth_reduce levels depth a) (sumDepth_reduce levels depth b))
  | .maxOf a b => sumDepth_guardOverflow
      (sumDepth_max (sumDepth_reduce levels depth a) (sumDepth_reduce levels depth b))
  | .sumOver _ _ _ _ => by
      refine sumDepth_guardOverflow ?_
      rw [resolveSum]
      split <;> rfl
termination_by structural e => e

/-- Resolving a sum leaves none in it. -/
theorem sumDepth_reduceSum (levels depth : ℕ) : ∀ (es : List Formula) (acc : Simplified),
    acc.substituted.sumDepth = 0 → (reduceSum levels depth acc es).substituted.sumDepth = 0
  | [], _, hacc => hacc
  | e :: es, _, hacc => sumDepth_reduceSum levels depth es _
      (operandwise_sumDepth.add hacc (sumDepth_reduce levels depth e))
termination_by structural es => es

theorem sumDepth_reduceProduct (levels depth : ℕ) : ∀ (es : List Formula) (acc : Simplified),
    acc.substituted.sumDepth = 0 → (reduceProduct levels depth acc es).substituted.sumDepth = 0
  | [], _, hacc => hacc
  | e :: es, _, hacc => sumDepth_reduceProduct levels depth es _
      (operandwise_sumDepth.mul hacc (sumDepth_reduce levels depth e))
termination_by structural es => es

end

/-- **No summation is left** in a resolved formula. -/
theorem sumDepth_substituted (e : Formula) : e.simplify.substituted.sumDepth = 0 :=
  sumDepth_reduce _ _ e

/-! ## Parts without notes

A note says that some part was not reduced exactly, so nothing can be said about
that part.  Between parts there are only sums, products and opposites, and what
is said of the parts is said of the whole by following these. -/

mutual

/-- The parts between which there are only sums, products and opposites are
reduced without a note. -/
def Clear : Formula → Prop
  | .plus ts => AllClear ts
  | .times fs => AllClear fs
  | .minus a => Clear a
  | e => e.Quiet
termination_by structural e => e

/-- The parts of a list of formulas are reduced without a note. -/
def AllClear : List Formula → Prop
  | [] => True
  | e :: es => Clear e ∧ AllClear es
termination_by structural es => es

end

/-- A list is clear if each formula of it is. -/
theorem allClear_iff {es : List Formula} : AllClear es ↔ ∀ e ∈ es, e.Clear := by
  induction es with
  | nil => exact iff_of_true trivial nofun
  | cons e es ih => rw [AllClear, ih, List.forall_mem_cons]

/-- To be clear is a property of operands, by its definition. -/
theorem operandwise_clear : Operandwise Clear where
  plus := allClear_iff
  times := allClear_iff
  minus := Iff.rfl
  num _ := quiet_num rfl

/-- A number is clear. -/
theorem clear_of_asNum? {q : ℚ} (h : e.asNum? = some (.exact q)) : e.Clear := by
  have hquiet := (quiet_of_asNum? h).1
  cases e with
  | num v => exact hquiet
  | resolved p => exact hquiet
  | _ => cases h

mutual

/-- If a formula is reduced without a note, then so are its parts. -/
theorem Quiet.clear : ∀ e : Formula, e.Quiet → e.Clear
  | .plus ts, h => Quiet.allClear ts h.plus.1
  | .times fs, h => Quiet.allClear fs h.times.1
  | .minus a, h => Quiet.clear a h.minus.1
  | .num _, h => h
  | .var _, h => h
  | .unknown _, h => h
  | .over _ _, h => h
  | .raised _ _, h => h
  | .logOf _, h => h
  | .minOf _ _, h => h
  | .maxOf _ _, h => h
  | .sumOver _ _ _ _, h => h
  | .resolved _, h => h
termination_by structural e => e

/-- Formulas that are reduced without a note are clear. -/
theorem Quiet.allClear : ∀ es : List Formula, (∀ e ∈ es, e.Quiet) → AllClear es
  | [], _ => trivial
  | e :: es, h => ⟨Quiet.clear e (h e List.mem_cons_self),
      Quiet.allClear es fun d hd => h d (List.mem_cons_of_mem _ hd)⟩
termination_by structural es => es

end

/-! ## Products without zeros

A factor that is zero makes a product vanish and everything that stood beside
it.  A resolved product that was not folded to zero has no such factor, at any
depth, and that is an invariant of the constructors. -/

mutual

/-- No product has a plain zero among its factors. -/
def Solid : Formula → Prop
  | .plus ts => AllSolid ts
  | .times fs => AllSolid fs ∧ ∀ f ∈ fs, f.isZero = false
  | .minus a => Solid a
  | _ => True
termination_by structural e => e

/-- In a list of formulas, no product has a plain zero among its factors. -/
def AllSolid : List Formula → Prop
  | [] => True
  | e :: es => Solid e ∧ AllSolid es
termination_by structural es => es

end

/-- A list is solid if each formula of it is. -/
theorem allSolid_iff {es : List Formula} : AllSolid es ↔ ∀ e ∈ es, e.Solid := by
  induction es with
  | nil => exact iff_of_true trivial nofun
  | cons e es ih => rw [AllSolid, ih, List.forall_mem_cons]

theorem sumwise_solid : Sumwise Solid where
  plus := allSolid_iff
  num _ := trivial

namespace Solid

/-- The factors of a solid formula are solid, and one of them is zero only if it
is. -/
theorem of_mem_multiplicands (ha : a.Solid) {f : Formula} (hf : f ∈ a.multiplicands) :
    f.Solid ∧ (f.isZero = true → a.isZero = true) := by
  cases a with
  | times fs =>
      refine ⟨allSolid_iff.mp ha.1 f hf, fun hzero => ?_⟩
      rw [ha.2 f hf] at hzero
      cases hzero
  | _ =>
      obtain rfl := List.mem_singleton.mp hf
      exact ⟨ha, id⟩

/-- A product of solid factors is solid, if none of them is zero. -/
theorem productOf (hfs : ∀ f ∈ fs, f.Solid) (hzero : ∀ f ∈ fs, f.isZero = false) :
    (Formula.productOf fs).Solid := by
  match fs with
  | [] => exact ⟨trivial, nofun⟩
  | [f] => exact hfs f List.mem_cons_self
  | _ :: _ :: _ => exact ⟨allSolid_iff.mpr hfs, hzero⟩

/-- Multiplying folds to zero where a factor is zero, and keeps none
otherwise. -/
theorem mul (ha : a.Solid) (hb : b.Solid) : (a.mul b).Solid := by
  obtain ⟨⟨total, factors⟩, habsorb⟩ :
      ∃ r, absorb Scalar.mul? 1 (a.multiplicands ++ b.multiplicands) = r := ⟨_, rfl⟩
  have hfactors : ∀ f ∈ factors, f.Solid := fun f hf =>
    (List.mem_append.mp (mem_of_mem_absorb habsorb hf)).elim
      (fun hf => (ha.of_mem_multiplicands hf).1) fun hf => (hb.of_mem_multiplicands hf).1
  have hzero : ∀ f ∈ factors, f.isZero = false := isZero_of_mem_absorb habsorb
  rw [mul_eq_productOf habsorb]
  split
  · trivial
  · next htotal =>
      refine productOf ?_ ?_
      all_goals split
      · exact List.forall_mem_cons.mpr ⟨trivial, hfactors⟩
      · exact hfactors
      · exact List.forall_mem_cons.mpr ⟨Bool.eq_false_iff.mpr htotal, hzero⟩
      · exact hzero

/-- The opposite of a solid formula is solid. -/
theorem neg (ha : a.Solid) : a.neg.Solid := by
  cases a with
  | num v =>
      rw [Formula.neg]
      split <;> trivial
  | _ => exact ha

end Solid

/-! ## Magnitudes -/

theorem sumwise_magnitude (B : ℕ) : Sumwise fun e => e.magnitude ≤ B where
  plus := greatestMagnitude_le_iff
  num _ := Nat.zero_le B

/-- The opposite has no greater bound. -/
theorem magnitude_neg : a.neg.magnitude ≤ a.magnitude := by
  cases a with
  | num v =>
      rw [neg]
      split <;> exact le_rfl
  | _ => exact le_rfl

/-- The bounds of factors add up. -/
theorem totalMagnitude_eq_sum (fs : List Formula) :
    totalMagnitude fs = (fs.map magnitude).sum := by
  induction fs with
  | nil => rfl
  | cons f fs ih => rw [totalMagnitude, ih, List.map_cons, List.sum_cons]

theorem totalMagnitude_multiplicands : totalMagnitude a.multiplicands = a.magnitude := by
  cases a <;> rfl

theorem magnitude_productOf : (productOf fs).magnitude = totalMagnitude fs := by
  match fs with
  | [] => rfl
  | [f] => rfl
  | _ :: _ :: _ => rfl

/-- Folding only drops factors, and numbers add nothing. -/
theorem magnitude_mul : (a.mul b).magnitude ≤ a.magnitude + b.magnitude := by
  obtain ⟨⟨total, factors⟩, habsorb⟩ :
      ∃ r, absorb Scalar.mul? 1 (a.multiplicands ++ b.multiplicands) = r := ⟨_, rfl⟩
  have hfactors : totalMagnitude factors ≤ a.magnitude + b.magnitude := by
    rw [← totalMagnitude_multiplicands (a := a), ← totalMagnitude_multiplicands (a := b),
      totalMagnitude_eq_sum, totalMagnitude_eq_sum, totalMagnitude_eq_sum, ← List.sum_append,
      ← List.map_append]
    exact ((sublist_of_absorb habsorb).map magnitude).sum_le_sum fun _ _ => Nat.zero_le _
  rw [mul_eq_productOf habsorb]
  split
  · exact Nat.zero_le _
  · rw [magnitude_productOf]
    split
    · rw [totalMagnitude, magnitude, zero_add]
      exact hfactors
    · exact hfactors

/-! ## What a resolved formula carries

Two formulas are compared, the original one and the resolved one.  The latter
*shows* a Laurent polynomial if it is in order and has it, and it *carries* one
if that is so as far as there are no notes; the constructors keep the weaker
statement without any condition. -/

variable {K : Atom → Prop} {B B' : ℕ} {x y : Laurent} {s t : Formula}

/-- To be in order is a property of operands. -/
theorem operandwise_inOrder (K : Atom → Prop) : Operandwise (InOrder K) where
  plus := ⟨fun h => by cases h; assumption, .plus⟩
  times := ⟨fun h => by cases h; assumption, .times⟩
  minus := ⟨fun h => by cases h; assumption, .minus⟩
  num q := .num _

/-- The formula is in order, its magnitude is at most `B`, and it has the
Laurent polynomial `x`. -/
structure Shows (K : Atom → Prop) (B : ℕ) (x : Laurent) (s : Formula) : Prop where
  inOrder : s.InOrder K
  magnitude_le : s.magnitude ≤ B
  laurent_eq : s.laurent = x

/-- No product in the formula has a plain zero among its factors, and as far as
its parts are reduced without a note, the formula shows `x`. -/
structure Carries (K : Atom → Prop) (B : ℕ) (x : Laurent) (s : Formula) : Prop where
  solid : s.Solid
  shows : s.Clear → s.Shows K B x

theorem Shows.num (K : Atom → Prop) (B : ℕ) (q : ℚ) :
    (num (.exact q)).Shows K B (Laurent.evaluation.number q) :=
  ⟨.num _, Nat.zero_le B, ringValue_laurent.num q⟩

theorem InOrder.shows (he : e.InOrder K) : e.Shows K e.magnitude e.laurent :=
  ⟨he, le_rfl, rfl⟩

namespace Carries

theorem num (K : Atom → Prop) (B : ℕ) (q : ℚ) :
    (Formula.num (.exact q)).Carries K B (Laurent.evaluation.number q) :=
  ⟨trivial, fun _ => .num K B q⟩

/-- The bound may be raised. -/
theorem mono (hs : s.Carries K B x) (hB : B ≤ B') : s.Carries K B' x :=
  ⟨hs.solid, fun hclear =>
    let hshows := hs.shows hclear
    ⟨hshows.inOrder, hshows.magnitude_le.trans hB, hshows.laurent_eq⟩⟩

/-- What is plainly a number shows it. -/
theorem eq_number (hs : s.Carries K B x) {q : ℚ} (hq : s.asNum? = some (.exact q)) :
    x = Laurent.evaluation.number q :=
  (hs.shows (clear_of_asNum? hq)).laurent_eq.symm.trans (ringValue_laurent.of_asNum? hq)

/-- A formula that is folded to zero carries zero. -/
theorem eq_zero (hs : s.Carries K B x) (hzero : s.isZero = true) : x = 0 := by
  obtain ⟨v, hv, hzero⟩ := exists_of_isZero hzero
  cases v with
  | overflow => cases hzero
  | exact q => rw [hs.eq_number hv, (Scalar.isZero_exact q).mp hzero, map_zero]

/-- Sums carry sums. -/
theorem add (hs : s.Carries K B x) (ht : t.Carries K B y) : (s.add t).Carries K B (x + y) := by
  refine ⟨sumwise_solid.add hs.solid ht.solid, fun hclear => ?_⟩
  obtain ⟨hsclear, htclear⟩ := operandwise_clear.of_add clear_of_asNum? hclear
  obtain ⟨hsorder, hsmagnitude, rfl⟩ := hs.shows hsclear
  obtain ⟨htorder, htmagnitude, rfl⟩ := ht.shows htclear
  exact ⟨(operandwise_inOrder K).add hsorder htorder,
    (sumwise_magnitude B).add hsmagnitude htmagnitude, ringValue_laurent.add s t⟩

/-- A product that is folded to zero has lost its other factors.  It is still
right, since the one that made it vanish is one of the operands. -/
theorem mul (hs : s.Carries K B x) (ht : t.Carries K B' y) :
    (s.mul t).Carries K (B + B') (x * y) := by
  refine ⟨hs.solid.mul ht.solid, fun hclear => ?_⟩
  rcases operandwise_clear.of_mul clear_of_asNum? hclear with
    ⟨hproduct, f, hf, hzero⟩ | ⟨hsclear, htclear⟩
  · have hvanish : x * y = 0 := by
      rcases List.mem_append.mp hf with hf | hf
      · rw [hs.eq_zero ((hs.solid.of_mem_multiplicands hf).2 hzero), zero_mul]
      · rw [ht.eq_zero ((ht.solid.of_mem_multiplicands hf).2 hzero), mul_zero]
    rw [hproduct, hvanish, ← map_zero Laurent.evaluation.number]
    exact .num K _ 0
  · obtain ⟨hsorder, hsmagnitude, rfl⟩ := hs.shows hsclear
    obtain ⟨htorder, htmagnitude, rfl⟩ := ht.shows htclear
    exact ⟨(operandwise_inOrder K).mul hsorder htorder,
      magnitude_mul.trans (Nat.add_le_add hsmagnitude htmagnitude), ringValue_laurent.mul s t⟩

theorem neg (hs : s.Carries K B x) : s.neg.Carries K B (-x) := by
  refine ⟨hs.solid.neg, fun hclear => ?_⟩
  obtain ⟨hsorder, hsmagnitude, rfl⟩ := hs.shows (operandwise_clear.neg_iff.mp hclear)
  exact ⟨(operandwise_inOrder K).neg_iff.mpr hsorder, magnitude_neg.trans hsmagnitude,
    ringValue_laurent.neg s⟩

end Carries

/-! ## Every node is carried on

One lemma for each node that simplification treats as opaque, and then the
induction over the formula.  A quotient and a power enter the ring by their
closed forms, so it is not enough that their operands carry the same polynomial:
their closed forms have to be the same. -/

/-- The formula `s` is what `e` is resolved to: it carries the Laurent
polynomial of `e`. -/
def Resolves (K : Atom → Prop) (e s : Formula) : Prop :=
  s.Carries K e.magnitude e.laurent

/-- Resolved terms that are added to what carries `x`. -/
theorem carries_reduceSum {acc : Simplified} (hacc : acc.substituted.Carries K B x)
    (hts : ∀ t ∈ ts, t.magnitude ≤ B ∧ t.Resolves K (reduce levels depth t).substituted) :
    (reduceSum levels depth acc ts).substituted.Carries K B (x + sumLaurent ts) := by
  induction ts generalizing acc x with
  | nil => exact (add_zero x).symm ▸ hacc
  | cons t ts ih =>
      obtain ⟨⟨hB, ht⟩, hts⟩ := List.forall_mem_cons.mp hts
      rw [sumLaurent, ← add_assoc]
      exact ih (hacc.add (ht.mono hB)) hts

/-- Resolved factors by which what carries `x` is multiplied. -/
theorem carries_reduceProduct {acc : Simplified} (hacc : acc.substituted.Carries K B x)
    (hfs : ∀ f ∈ fs, f.Resolves K (reduce levels depth f).substituted) :
    (reduceProduct levels depth acc fs).substituted.Carries K (B + totalMagnitude fs)
      (x * productLaurent fs) := by
  induction fs generalizing acc x B with
  | nil => exact (mul_one x).symm ▸ hacc
  | cons f fs ih =>
      obtain ⟨hf, hfs⟩ := List.forall_mem_cons.mp hfs
      rw [productLaurent, ← mul_assoc, totalMagnitude, ← add_assoc]
      exact ih (hacc.mul hf) hfs

/-- A summation whose value did not overflow is replaced by it. -/
theorem substituted_resolveSum {index : String} {body start stop : Simplified}
    (hvalue : (resolveSum levels depth index body start stop).poly.hasOverflow = false) :
    (resolveSum levels depth index body start stop).substituted =
      .resolved (resolveSum levels depth index body start stop).poly := by
  rw [poly_resolveSum] at hvalue ⊢
  rw [resolveSum, hvalue]
  rfl

section

variable (h : Assoc.LinearOn K)
include h

/-- **The closed form of what a formula is resolved to** is that of the formula,
if neither leaves a note. -/
theorem Resolves.closedForm_eq (hs : e.Resolves K s) (he : e.InOrder K) (hB : e.magnitude < 2 ^ 63)
    (hquiet : e.Quiet) (hsquiet : s.Quiet) : s.closedForm = e.closedForm := by
  obtain ⟨horder, hmagnitude, hlaurent⟩ := hs.shows hsquiet.clear
  have hstands := horder.stands h hsquiet (hmagnitude.trans_lt hB)
  rw [hlaurent] at hstands
  exact hstands.eq h (he.stands h hquiet hB) (exact_closedForm s) (exact_closedForm e)

/-- A plain number that a formula is resolved to is its closed form. -/
theorem Resolves.asConstant? (hs : e.Resolves K s) (he : e.InOrder K) (hB : e.magnitude < 2 ^ 63)
    (hquiet : e.Quiet) {q : ℚ} (hq : s.asNum? = some (.exact q)) :
    e.closedForm.asConstant? = some (.exact q) := by
  obtain ⟨hsquiet, hconstant⟩ := quiet_of_asNum? hq
  rwa [← hs.closedForm_eq h he hB hquiet hsquiet]

/-- Dividing by a number multiplies the Laurent polynomial by the reciprocal. -/
theorem laurent_over (ha : a.InOrder K) (hB : a.magnitude < 2 ^ 63)
    (hquiet : (Formula.over a b).Quiet) {w : ℚ}
    (hw : b.closedForm.asConstant? = some (.exact w)) (hzero : w ≠ 0)
    (hfits : (Scalar.exact w).Fits) :
    (Formula.over a b).laurent = Laurent.evaluation.number w⁻¹ * a.laurent := by
  obtain ⟨haquiet, -, hclosed⟩ := hquiet.quotient
  obtain ⟨hnum, hden⟩ := Scalar.exact_fits_iff.mp hfits
  rw [div_of_asConstant? hw hzero hnum hden, (hfits.inv hzero).one_mul] at hclosed
  have hexact := exact_closedForm (Formula.over a b)
  show (Formula.over a b).closedForm.laurent = _
  rw [hclosed] at hexact ⊢
  have hlaurent : a.closedForm.laurent = a.laurent :=
    (ha.stands h haquiet hB).gives (exact_closedForm a)
  rw [← hlaurent]
  exact (Laurent.evaluation.scale_of_exact hexact).2

/-- **Quotients.**  A divisor that is plainly one is dropped, two numbers are
divided, and any other quotient is one of formulas with the same closed
forms. -/
theorem Resolves.div (he : (Formula.over a b).InOrder K)
    (hB : (Formula.over a b).magnitude < 2 ^ 63) (hquiet : (Formula.over a b).Quiet)
    (hs : a.Resolves K s) (ht : b.Resolves K t) :
    (Formula.over a b).Resolves K (s.div t) := by
  obtain ⟨haquiet, hbquiet, hclosed⟩ := hquiet.quotient
  have hBa : a.magnitude ≤ (Formula.over a b).magnitude :=
    (Nat.le_max_left _ _).trans (Nat.le_max_right _ _)
  have hBb : b.magnitude ≤ (Formula.over a b).magnitude :=
    (Nat.le_max_right _ _).trans (Nat.le_max_right _ _)
  obtain ⟨ha, hb, hlisted⟩ : a.InOrder K ∧ b.InOrder K ∧
      (Formula.over a b).closedForm.ListedOver K := by
    cases he
    exact ⟨‹_›, ‹_›, ‹_›⟩
  -- a quotient that is not folded has the same closed form on both sides
  have hover : (Formula.over a b).Resolves K (Formula.over s t) := by
    refine ⟨trivial, fun hclear => ?_⟩
    obtain ⟨hsquiet, htquiet, hresolved⟩ := Quiet.quotient hclear
    obtain ⟨hsorder, hsmagnitude, -⟩ := hs.shows hsquiet.clear
    obtain ⟨htorder, htmagnitude, -⟩ := ht.shows htquiet.clear
    rw [hs.closedForm_eq h ha (hBa.trans_lt hB) haquiet hsquiet,
      ht.closedForm_eq h hb (hBb.trans_lt hB) hbquiet htquiet, ← hclosed] at hresolved
    refine ⟨.quotient hsorder htorder (hresolved ▸ hlisted), ?_, ?_⟩
    · exact Nat.max_le.mpr ⟨hresolved ▸ Nat.le_max_left _ _,
        Nat.max_le.mpr ⟨hsmagnitude.trans hBa, htmagnitude.trans hBb⟩⟩
    · show (Formula.over s t).closedForm.laurent = _
      rw [hresolved]
      rfl
  rw [Formula.div]
  split
  · next hone =>
      obtain ⟨v, hv, hone⟩ := exists_of_isOne hone
      cases v with
      | overflow => cases hone
      | exact w =>
          obtain rfl := (Scalar.isOne_exact w).mp hone
          have hlaurent := laurent_over h ha (hBa.trans_lt hB) hquiet
            (ht.asConstant? h hb (hBb.trans_lt hB) hbquiet hv) one_ne_zero Scalar.one_fits
          rw [inv_one, map_one, one_mul] at hlaurent
          rw [Resolves, hlaurent]
          exact hs.mono hBa
  · split
    · next u w hu hw =>
        split
        · next r hr =>
            refine ⟨trivial, fun hclear => ?_⟩
            obtain ⟨x, rfl⟩ := Quiet.exists_num hclear
            -- two numbers are folded, and their quotient is the scaled
            -- numerator
            obtain ⟨p, q, rfl, rfl, hzero, hfits, rfl⟩ := Scalar.exists_of_div? hr
            rw [laurent_over h ha (hBa.trans_lt hB) hquiet
              (ht.asConstant? h hb (hBb.trans_lt hB) hbquiet hw) hzero hfits, hs.eq_number hu,
              ← map_mul]
            exact .num K _ _
        · exact hover
    · exact hover

/-- **Powers.**  The power one is the base, the power zero is one, and any other
power is one of formulas with the same closed forms. -/
theorem Resolves.pow (he : (Formula.raised a b).InOrder K)
    (hB : (Formula.raised a b).magnitude < 2 ^ 63) (hquiet : (Formula.raised a b).Quiet)
    (hs : a.Resolves K s) (ht : b.Resolves K t) :
    (Formula.raised a b).Resolves K (s.pow t) := by
  obtain ⟨haquiet, hbquiet, hclosed⟩ := hquiet.raised
  have hBa : a.magnitude ≤ (Formula.raised a b).magnitude :=
    (Nat.le_max_left _ _).trans (Nat.le_max_right _ _)
  have hBb : b.magnitude ≤ (Formula.raised a b).magnitude :=
    (Nat.le_max_right _ _).trans (Nat.le_max_right _ _)
  obtain ⟨ha, hb, hlisted⟩ : a.InOrder K ∧ b.InOrder K ∧
      (Formula.raised a b).closedForm.ListedOver K := by
    cases he
    exact ⟨‹_›, ‹_›, ‹_›⟩
  -- a plain natural in the exponent is one of the closed form, too, which is
  -- then multiplied out
  have hpower : ∀ {k : ℕ}, k ≤ 64 → t.asNum? = some (.exact k) →
      (Formula.raised a b).closedForm = a.closedForm.powNat k := fun hk hnum =>
    hclosed.trans (power_of_asConstant? (ht.asConstant? h hb (hBb.trans_lt hB) hbquiet hnum) hk _)
  rw [Formula.pow]
  split
  · next hone =>
      obtain ⟨v, hv, hone⟩ := exists_of_isOne hone
      cases v with
      | overflow => cases hone
      | exact w =>
          obtain rfl := (Scalar.isOne_exact w).mp hone
          have hpow : (Formula.raised a b).closedForm = Poly.one.mul a.closedForm :=
            hpower (k := 1) (by decide) (by exact_mod_cast hv)
          have hstands := (Poly.Stands.one K 0).mul h
            (ha.stands h haquiet (hBa.trans_lt hB)) (by omega)
          rw [← hpow, one_mul] at hstands
          have hlaurent : (Formula.raised a b).laurent = a.laurent :=
            hstands.gives (exact_closedForm _)
          rw [Resolves, hlaurent]
          exact hs.mono hBa
  · split
    · next hzero =>
        obtain ⟨v, hv, hzero⟩ := exists_of_isZero hzero
        cases v with
        | overflow => cases hzero
        | exact w =>
            obtain rfl := (Scalar.isZero_exact w).mp hzero
            have hpow : (Formula.raised a b).closedForm = Poly.one :=
              hpower (k := 0) (by decide) (by exact_mod_cast hv)
            have hlaurent : (Formula.raised a b).laurent = Laurent.evaluation.number 1 :=
              (congrArg Poly.laurent hpow).trans (laurent_of_asConstant? rfl)
            rw [Resolves, hlaurent]
            exact .num K _ 1
    · refine ⟨trivial, fun hclear => ?_⟩
      obtain ⟨hsquiet, htquiet, hresolved⟩ := Quiet.raised hclear
      obtain ⟨hsorder, hsmagnitude, -⟩ := hs.shows hsquiet.clear
      obtain ⟨htorder, htmagnitude, -⟩ := ht.shows htquiet.clear
      rw [hs.closedForm_eq h ha (hBa.trans_lt hB) haquiet hsquiet,
        ht.closedForm_eq h hb (hBb.trans_lt hB) hbquiet htquiet, ← hclosed] at hresolved
      refine ⟨.raised hsorder htorder (hresolved ▸ hlisted), ?_, ?_⟩
      · exact Nat.max_le.mpr ⟨hresolved ▸ Nat.le_max_left _ _,
          Nat.max_le.mpr ⟨hsmagnitude.trans hBa, htmagnitude.trans hBb⟩⟩
      · show (Formula.raised s t).closedForm.laurent = _
        rw [hresolved]
        rfl

/-- **Logarithms** are those of formulas with the same closed form. -/
theorem Resolves.log (he : (Formula.logOf a).InOrder K)
    (hB : (Formula.logOf a).magnitude < 2 ^ 63) (hquiet : (Formula.logOf a).Quiet)
    (hs : a.Resolves K s) : (Formula.logOf a).Resolves K s.log := by
  obtain ⟨haquiet, hclosed⟩ := hquiet.logOf
  have hBa : a.magnitude ≤ (Formula.logOf a).magnitude := Nat.le_max_right _ _
  obtain ⟨ha, hlisted⟩ : a.InOrder K ∧ (Formula.logOf a).closedForm.ListedOver K := by
    cases he
    exact ⟨‹_›, ‹_›⟩
  refine ⟨trivial, fun hclear => ?_⟩
  obtain ⟨hsquiet, hresolved⟩ := Quiet.logOf hclear
  obtain ⟨hsorder, hsmagnitude, -⟩ := hs.shows hsquiet.clear
  rw [hs.closedForm_eq h ha (hBa.trans_lt hB) haquiet hsquiet, ← hclosed] at hresolved
  refine ⟨.logOf hsorder (hresolved ▸ hlisted), ?_, ?_⟩
  · exact Nat.max_le.mpr ⟨hresolved ▸ Nat.le_max_left _ _, hsmagnitude.trans hBa⟩
  · show (Formula.logOf s).closedForm.laurent = _
    rw [hresolved]
    rfl

/-- **Every node is carried on.**  The induction is over the formula; a
summation is resolved to its closed form, whatever its parts were resolved
to. -/
theorem InOrder.resolves (he : e.InOrder K) (hB : e.magnitude < 2 ^ 63)
    (hnotes : (reduce levels depth e).notes = []) :
    e.Resolves K (reduce levels depth e).substituted := by
  induction he with
  | num v =>
      obtain ⟨heq, -⟩ := guardOverflow_of_notes hnotes
      rw [reduce, heq]
      exact ⟨trivial, fun _ => (InOrder.num v).shows⟩
  | unknown t => cases hnotes
  | var hname => exact ⟨trivial, fun _ => (InOrder.var hname).shows⟩
  | resolved hp =>
      obtain ⟨heq, -⟩ := guardOverflow_of_notes hnotes
      rw [reduce, heq]
      exact ⟨trivial, fun _ => (InOrder.resolved hp).shows⟩
  | @plus ts _ ih =>
      obtain ⟨heq, hsum, -⟩ := guardOverflow_of_notes hnotes
      have hterms := greatestMagnitude_le_iff.mp (le_refl (greatestMagnitude ts))
      rw [reduce, heq]
      have hstart : (leaf Poly.zero zero []).substituted.Carries K (greatestMagnitude ts)
          (Laurent.evaluation.number 0) := .num K _ 0
      have hresolved := carries_reduceSum hstart fun t ht =>
        ⟨hterms t ht, ih t ht ((hterms t ht).trans_lt hB) (notes_of_mem_reduceSum hsum t ht)⟩
      rw [map_zero, zero_add] at hresolved
      exact hresolved
  | @times fs _ ih =>
      obtain ⟨heq, hproduct, -⟩ := guardOverflow_of_notes hnotes
      rw [reduce, heq]
      have hstart : (leaf Poly.one one []).substituted.Carries K 0
          (Laurent.evaluation.number 1) := .num K 0 1
      have hresolved := carries_reduceProduct hstart fun f hf =>
        ih f hf ((magnitude_le_of_mem hf).trans_lt hB) (notes_of_mem_reduceProduct hproduct f hf)
      rw [map_one, one_mul, zero_add] at hresolved
      exact hresolved
  | minus _ ih =>
      obtain ⟨heq, hnotes, -⟩ := guardOverflow_of_notes hnotes
      rw [reduce, heq]
      exact (ih hB hnotes).neg
  | quotient ha hb hclosed iha ihb =>
      have hquiet := quiet_of_notes hnotes
      obtain ⟨heq, hboth, -⟩ := guardOverflow_of_notes hnotes
      obtain ⟨hanotes, hbnotes⟩ := List.append_eq_nil_iff.mp hboth
      rw [reduce, heq]
      exact .div h (.quotient ha hb hclosed) hB hquiet
        (iha (((Nat.le_max_left _ _).trans (Nat.le_max_right _ _)).trans_lt hB) hanotes)
        (ihb (((Nat.le_max_right _ _).trans (Nat.le_max_right _ _)).trans_lt hB) hbnotes)
  | raised ha hb hclosed iha ihb =>
      have hquiet := quiet_of_notes hnotes
      obtain ⟨heq, hboth, -⟩ := guardOverflow_of_notes hnotes
      obtain ⟨hanotes, hbnotes⟩ := List.append_eq_nil_iff.mp hboth
      rw [reduce, heq]
      exact .pow h (.raised ha hb hclosed) hB hquiet
        (iha (((Nat.le_max_left _ _).trans (Nat.le_max_right _ _)).trans_lt hB) hanotes)
        (ihb (((Nat.le_max_right _ _).trans (Nat.le_max_right _ _)).trans_lt hB) hbnotes)
  | logOf ha hclosed ih =>
      have hquiet := quiet_of_notes hnotes
      obtain ⟨heq, hanotes, -⟩ := guardOverflow_of_notes hnotes
      rw [reduce, heq]
      exact .log h (.logOf ha hclosed) hB hquiet
        (ih ((Nat.le_max_right _ _).trans_lt hB) hanotes)
  | @sumOver body start stop index hclosed =>
      obtain ⟨heq, -, hoverflow⟩ := guardOverflow_of_notes hnotes
      -- a summation is replaced by its closed form, which is kept as it is
      have hpoly := poly_reduce_eq_closedForm levels depth (.sumOver body index start stop)
      rw [reduce, heq] at hpoly ⊢
      rw [substituted_resolveSum hoverflow]
      rw [hpoly] at hoverflow ⊢
      have hresolved := closedForm_resolved hoverflow
      exact ⟨trivial, fun _ => ⟨.resolved hclosed, (congrArg Poly.magnitude hresolved).le,
        congrArg Poly.laurent hresolved⟩⟩

end

/-! ## Simplifying twice -/

/-- **Resolving is faithful.**  What a formula is resolved to holds no
summation.  Simplifying it gives the closed form of the formula, if neither
leaves a note, as long as the exponents fit their words and the closed forms
that enter are listed in a linear order. -/
theorem poly_simplify_substituted (e : Formula) : e.simplify.substituted.sumDepth = 0 ∧
    ∀ K, Assoc.LinearOn K → e.InOrder K → e.magnitude < 2 ^ 63 → e.simplify.notes = [] →
      e.simplify.substituted.simplify.notes = [] →
        e.simplify.substituted.simplify.poly = e.simplify.poly :=
  ⟨sumDepth_substituted e, fun _ h he hB hnotes hsnotes =>
    (he.resolves h hB (Note.logOf_eq_nil hnotes)).closedForm_eq h he hB
      (quiet_of_notes_simplify hnotes) (quiet_of_notes_simplify hsnotes)⟩

/-- Half of a summation and one more term, in one quotient. -/
def halvedTotal : Formula :=
  .over (.plus [.sumOver (.var "i") "i" (.num (.exact 1)) (.var "n"), .var "n"]) (.num (.exact 2))

/-- The resolved formula has no summation, and the same closed form. -/
theorem poly_simplify_substituted_halvedTotal :
    halvedTotal.sumDepth = 1 ∧ halvedTotal.simplify.substituted.sumDepth = 0 ∧
      halvedTotal.simplify.substituted.simplify.poly = halvedTotal.simplify.poly := by
  have hnotes : halvedTotal.simplify.notes = [] := by decide +kernel
  have hsnotes : halvedTotal.simplify.substituted.simplify.notes = [] := by decide +kernel
  have harith : halvedTotal.Arithmetic := by
    refine .quotient (.plus fun e he => ?_) (by decide) (by decide) (by decide)
    simp only [List.mem_cons, List.not_mem_nil, or_false] at he
    rcases he with rfl | rfl
    · exact .sumOver (.var _) (.num 1) (.var _)
    · exact .var _
  obtain ⟨hflat, hpoly⟩ := poly_simplify_substituted halvedTotal
  exact ⟨rfl, hflat, hpoly Atom.IsVar Atom.linearOn_isVar
    (harith.inOrder (quiet_of_notes_simplify hnotes)) (by decide +kernel) hnotes hsnotes⟩

/-! ## What is not faithful -/

/-- The texts of two closed forms tell them apart. -/
theorem exists_of_texts {source : String} (text text' : String)
    (h : ((read? source).map fun e =>
      (e.simplify.notes.isEmpty, e.simplify.substituted.simplify.notes.isEmpty,
        e.simplify.poly.text, e.simplify.substituted.simplify.poly.text)) =
      some (true, true, text, text')) (hne : text' ≠ text) :
    ∃ e, read? source = some e ∧ e.simplify.notes = [] ∧
      e.simplify.substituted.simplify.notes = [] ∧
        e.simplify.substituted.simplify.poly ≠ e.simplify.poly := by
  obtain ⟨e, hread, he⟩ := Option.map_eq_some_iff.mp h
  simp only [Prod.mk.injEq, List.isEmpty_iff] at he
  obtain ⟨hnotes, hsnotes, rfl, rfl⟩ := he
  exact ⟨e, hread, hnotes, hsnotes, fun heq => hne (congrArg Poly.text heq)⟩

/-- **Exponents at the end of their words.**  The inner product is one, but with
its factors in the outer one the exponent is clamped before it gets smaller. -/
theorem poly_simplify_substituted_clampedPower :
    ∃ e, read? "x**9223372036854775807*(x*(1/x))**Sum(1, (i, 1, 1))" = some e ∧
      e.simplify.notes = [] ∧ e.simplify.substituted.simplify.notes = [] ∧
        e.simplify.substituted.simplify.poly ≠ e.simplify.poly := by
  refine exists_of_texts "x**9223372036854775807" "x**9223372036854775806" ?_ (by decide)
  decide +kernel

end CostAnalysis.Formula
