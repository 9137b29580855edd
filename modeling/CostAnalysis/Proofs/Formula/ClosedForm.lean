import CostAnalysis.Algebra.ClosedForm
import CostAnalysis.Proofs.Poly.Elementary

/-!
# The closed form of a node

Beside the polynomial, the reduction of a formula carries along how its
summations were resolved and what went wrong.  The polynomial depends on none of
that (`poly_reduce_eq_simplify`), and so the closed form of a node is the
operation of the node applied to the closed forms of its parts, as long as no
coefficient overflows.  `closedForm_plus`, `closedForm_over`, ... say this node
by node.

Where no coefficient overflows, nothing is noted either, so that a formula
without fragments and summations is reduced in silence (`Formula.ClosesTo`).

**What later proofs use.**  `Formula.closedForm` with its equations is the
interface of the reduction for all that is about polynomials, and
`Formula.ClosesTo` the one for texts that are read back.  Neither mentions how
far a summation lies inside of others, or how its derivation is told.
-/

namespace CostAnalysis.Formula

/-! ## The polynomial of a part

The accumulators of sums and products carry notes and resolved formulas along.
None of that enters the polynomial, which is what these statements say of each
step. -/

/-- The guard looks at the polynomial only. -/
theorem poly_guardOverflow {e : Formula} {r r' : Simplified} (h : r.poly = r'.poly) :
    (guardOverflow e r).poly = (guardOverflow e r').poly := by
  simp only [guardOverflow, h]
  split
  · rfl
  · exact h

/-- Resolving a summation sums the polynomials. -/
theorem poly_resolveSum (levels depth : ℕ) (index : String) (body start stop : Simplified) :
    (resolveSum levels depth index body start stop).poly =
      (body.poly.sumOver index start.poly stop.poly).value := by
  simp only [resolveSum]
  split <;> rfl

mutual

/-- The place of a formula among summations decides how its derivation is told,
not what it is. -/
theorem poly_reduce (levels depth levels' depth' : ℕ) : ∀ e : Formula,
    (reduce levels depth e).poly = (reduce levels' depth' e).poly
  | .num v => rfl
  | .var name => rfl
  | .resolved p => rfl
  | .unknown t => rfl
  | .plus ts => poly_guardOverflow (poly_reduceSum levels depth levels' depth' ts _ _ rfl)
  | .times fs => poly_guardOverflow (poly_reduceProduct levels depth levels' depth' fs _ _ rfl)
  | .over a b => poly_guardOverflow (congrArg₂ Poly.div
      (poly_reduce levels depth levels' depth' a) (poly_reduce levels depth levels' depth' b))
  | .raised a b => poly_guardOverflow (congrArg₂ Poly.power
      (poly_reduce levels depth levels' depth' a) (poly_reduce levels depth levels' depth' b))
  | .minus a => poly_guardOverflow (congrArg Poly.neg (poly_reduce levels depth levels' depth' a))
  | .logOf a => poly_guardOverflow (congrArg Poly.log (poly_reduce levels depth levels' depth' a))
  | .minOf a b => poly_guardOverflow (congrArg₂ Poly.minWith
      (poly_reduce levels depth levels' depth' a) (poly_reduce levels depth levels' depth' b))
  | .maxOf a b => poly_guardOverflow (congrArg₂ Poly.maxWith
      (poly_reduce levels depth levels' depth' a) (poly_reduce levels depth levels' depth' b))
  | .sumOver body index start stop => by
      refine poly_guardOverflow ?_
      rw [poly_resolveSum, poly_resolveSum,
        poly_reduce levels (depth + 1) levels' (depth' + 1) body,
        poly_reduce levels depth levels' depth' start, poly_reduce levels depth levels' depth' stop]
termination_by structural e => e

/-- Sums add up the polynomials of their addends. -/
theorem poly_reduceSum (levels depth levels' depth' : ℕ) : ∀ (es : List Formula)
    (acc acc' : Simplified), acc.poly = acc'.poly →
      (reduceSum levels depth acc es).poly = (reduceSum levels' depth' acc' es).poly
  | [], _, _, h => h
  | e :: es, _, _, h => poly_reduceSum levels depth levels' depth' es _ _
      (congrArg₂ Poly.add h (poly_reduce levels depth levels' depth' e))
termination_by structural es => es

theorem poly_reduceProduct (levels depth levels' depth' : ℕ) : ∀ (es : List Formula)
    (acc acc' : Simplified), acc.poly = acc'.poly →
      (reduceProduct levels depth acc es).poly = (reduceProduct levels' depth' acc' es).poly
  | [], _, _, h => h
  | e :: es, _, _, h => poly_reduceProduct levels depth levels' depth' es _ _
      (congrArg₂ Poly.mul h (poly_reduce levels depth levels' depth' e))
termination_by structural es => es

end

/-- The polynomial that a part is reduced to is its closed form. -/
theorem poly_reduce_eq_simplify (levels depth : ℕ) (e : Formula) :
    (reduce levels depth e).poly = e.simplify.poly :=
  poly_reduce levels depth e.sumDepth 0 e

/-! ## Node by node

Sums and products are folds over their operands, all other nodes are one
operation.  Each equation has the condition that its result has no overflow,
which the next node out needs again. -/

/-- The polynomial that a formula stands for. -/
def closedForm (e : Formula) : Poly :=
  e.simplify.poly

theorem poly_reduce_eq_closedForm (levels depth : ℕ) (e : Formula) :
    (reduce levels depth e).poly = e.closedForm :=
  poly_reduce_eq_simplify levels depth e

variable {a b e : Formula} {p : Poly}

/-- What a node was combined to is kept if no coefficient overflowed. -/
theorem closedForm_eq {r : Simplified} (he : e.closedForm = (guardOverflow e r).poly)
    (hr : r.poly = p) (hp : p.hasOverflow = false) : e.closedForm = p := by
  subst hr
  rw [he, guardOverflow, hp]
  rfl

theorem closedForm_num {v : Scalar} (hv : v.Fits) : (num v).closedForm = Poly.constant v :=
  closedForm_eq rfl rfl (Poly.elementary_term hv Monomial.elementary_one).hasOverflow

theorem closedForm_minus (h : a.closedForm.neg = p) (hp : p.hasOverflow = false) :
    (minus a).closedForm = p :=
  closedForm_eq rfl h hp

theorem closedForm_logOf (h : a.closedForm.log = p) (hp : p.hasOverflow = false) :
    (logOf a).closedForm = p :=
  closedForm_eq rfl h hp

/-- A quotient has the quotient of the closed forms. -/
theorem closedForm_over (h : a.closedForm.div b.closedForm = p) (hp : p.hasOverflow = false) :
    (Formula.over a b).closedForm = p := by
  refine closedForm_eq rfl ?_ hp
  simpa only [combine, poly_reduce_eq_closedForm] using h

theorem closedForm_raised (h : a.closedForm.power b.closedForm = p) (hp : p.hasOverflow = false) :
    (raised a b).closedForm = p := by
  refine closedForm_eq rfl ?_ hp
  simpa only [combine, poly_reduce_eq_closedForm] using h

/-- A sum in progress, as a fold over the closed forms. -/
theorem poly_reduceSum_eq (levels depth : ℕ) (acc : Simplified) (es : List Formula) :
    (reduceSum levels depth acc es).poly =
      es.foldl (fun sum e => sum.add e.closedForm) acc.poly := by
  induction es generalizing acc with
  | nil => rfl
  | cons e es ih =>
      rw [reduceSum, ih, List.foldl_cons, combine, poly_reduce_eq_closedForm]

/-- A product in progress, as a fold over the closed forms. -/
theorem poly_reduceProduct_eq (levels depth : ℕ) (acc : Simplified) (es : List Formula) :
    (reduceProduct levels depth acc es).poly =
      es.foldl (fun product e => product.mul e.closedForm) acc.poly := by
  induction es generalizing acc with
  | nil => rfl
  | cons e es ih =>
      rw [reduceProduct, ih, List.foldl_cons, combine, poly_reduce_eq_closedForm]

theorem closedForm_plus {ts : List Formula}
    (h : ts.foldl (fun sum e => sum.add e.closedForm) Poly.zero = p) (hp : p.hasOverflow = false) :
    (plus ts).closedForm = p :=
  closedForm_eq rfl ((poly_reduceSum_eq _ _ _ ts).trans h) hp

theorem closedForm_times {fs : List Formula}
    (h : fs.foldl (fun product e => product.mul e.closedForm) Poly.one = p)
    (hp : p.hasOverflow = false) : (times fs).closedForm = p :=
  closedForm_eq rfl ((poly_reduceProduct_eq _ _ _ fs).trans h) hp

/-- The closed form of a sum each of whose terms is kept by the zero from which
the sum starts. -/
theorem closedForm_sumOf {es : List Formula}
    (hzero : ∀ e ∈ es, Poly.zero.add e.closedForm = e.closedForm)
    (h : es.foldl (fun sum e => sum.add e.closedForm) Poly.zero = p)
    (hp : p.hasOverflow = false) : (sumOf es).closedForm = p := by
  match es with
  | [] => exact h
  | [e] => exact (hzero e (by simp)).symm.trans h
  | _ :: _ :: _ => exact closedForm_plus h hp

/-- The closed form of a product whose first factor is kept by the one from
which the product starts. -/
theorem closedForm_productOf {first : Formula} {es : List Formula}
    (hone : Poly.one.mul first.closedForm = first.closedForm)
    (h : es.foldl (fun product e => product.mul e.closedForm) first.closedForm = p)
    (hp : p.hasOverflow = false) : (productOf (first :: es)).closedForm = p := by
  cases es with
  | nil => exact h
  | cons e es =>
      refine closedForm_times ?_ hp
      rw [List.foldl_cons, hone]
      exact h

/-! ## In silence

Notes are accumulated along a formula, so that silence of the whole is silence
of the parts.  What is noted besides fragments is an overflow, and that is
excluded by the closed form itself. -/

/-- Nothing is noted about a formula, unless fragments are allowed in it. -/
def Silent (fragments : Prop) (e : Formula) : Prop :=
  ¬ fragments → ∀ levels depth, (reduce levels depth e).notes = []

/-- The formula has the closed form `p`, and that is found without a note unless
fragments are allowed. -/
structure ClosesTo (fragments : Prop) (e : Formula) (p : Poly) : Prop where
  closedForm_eq : e.closedForm = p
  silent : e.Silent fragments

variable {fragments : Prop} {q : Poly} {es : List Formula}

/-- Without fragments silence means no notes. -/
theorem Silent.notes_simplify (h : e.Silent fragments) (hf : ¬ fragments) :
    e.simplify.notes = [] := by
  show Note.logOf (reduce e.sumDepth 0 e).notes = []
  rw [h hf]
  rfl

/-- The guard adds no note where nothing overflowed. -/
theorem notes_guardOverflow {r : Simplified} (hr : r.poly.hasOverflow = false)
    (hnotes : r.notes = []) : (guardOverflow e r).notes = [] := by
  rw [guardOverflow, hr]
  exact hnotes

/-- A sum of parts without notes has none. -/
theorem notes_reduceSum {levels depth : ℕ} {acc : Simplified} (hacc : acc.notes = [])
    (hes : ∀ e ∈ es, (reduce levels depth e).notes = []) :
    (reduceSum levels depth acc es).notes = [] := by
  induction es generalizing acc with
  | nil => exact hacc
  | cons e es ih =>
      obtain ⟨he, hes⟩ := List.forall_mem_cons.mp hes
      exact ih (List.append_eq_nil_iff.mpr ⟨hacc, he⟩) hes

theorem notes_reduceProduct {levels depth : ℕ} {acc : Simplified} (hacc : acc.notes = [])
    (hes : ∀ e ∈ es, (reduce levels depth e).notes = []) :
    (reduceProduct levels depth acc es).notes = [] := by
  induction es generalizing acc with
  | nil => exact hacc
  | cons e es ih =>
      obtain ⟨he, hes⟩ := List.forall_mem_cons.mp hes
      exact ih (List.append_eq_nil_iff.mpr ⟨hacc, he⟩) hes

namespace ClosesTo

/-- A number is closed in silence. -/
theorem num {v : Scalar} (hv : v.Fits) : (num v).ClosesTo fragments (Poly.constant v) where
  closedForm_eq := closedForm_num hv
  silent _ _ _ := notes_guardOverflow
    (Poly.elementary_term hv Monomial.elementary_one).hasOverflow rfl

theorem var (v : String) : (var v).ClosesTo fragments (Poly.var v) where
  closedForm_eq := rfl
  silent _ _ _ := rfl

theorem unknown (hf : fragments) (t : String) :
    (unknown t).ClosesTo fragments (Poly.unknown t) where
  closedForm_eq := rfl
  silent h := absurd hf h

/-- An opposite is closed in silence, if the result has no overflow. -/
theorem minus (ha : a.ClosesTo fragments q) (h : q.neg = p) (hp : p.hasOverflow = false) :
    (minus a).ClosesTo fragments p where
  closedForm_eq := closedForm_minus (ha.closedForm_eq.symm ▸ h) hp
  silent hf levels depth := by
    refine notes_guardOverflow ?_ (ha.silent hf levels depth)
    show (reduce levels depth a).poly.neg.hasOverflow = false
    rw [poly_reduce_eq_closedForm, ha.closedForm_eq, h, hp]

theorem logOf (ha : a.ClosesTo fragments q) (h : q.log = p) (hp : p.hasOverflow = false) :
    (logOf a).ClosesTo fragments p where
  closedForm_eq := closedForm_logOf (ha.closedForm_eq.symm ▸ h) hp
  silent hf levels depth := by
    refine notes_guardOverflow ?_ (ha.silent hf levels depth)
    show (reduce levels depth a).poly.log.hasOverflow = false
    rw [poly_reduce_eq_closedForm, ha.closedForm_eq, h, hp]

theorem quotient {r : Poly} (ha : a.ClosesTo fragments q) (hb : b.ClosesTo fragments r)
    (h : q.div r = p) (hp : p.hasOverflow = false) :
    (Formula.over a b).ClosesTo fragments p where
  closedForm_eq := closedForm_over (by rw [ha.closedForm_eq, hb.closedForm_eq, h]) hp
  silent hf levels depth := by
    refine notes_guardOverflow ?_
      (List.append_eq_nil_iff.mpr ⟨ha.silent hf levels depth, hb.silent hf levels depth⟩)
    show ((reduce levels depth a).poly.div (reduce levels depth b).poly).hasOverflow = false
    rw [poly_reduce_eq_closedForm, poly_reduce_eq_closedForm, ha.closedForm_eq, hb.closedForm_eq, h,
      hp]

theorem raised {r : Poly} (ha : a.ClosesTo fragments q) (hb : b.ClosesTo fragments r)
    (h : q.power r = p) (hp : p.hasOverflow = false) :
    (raised a b).ClosesTo fragments p where
  closedForm_eq := closedForm_raised (by rw [ha.closedForm_eq, hb.closedForm_eq, h]) hp
  silent hf levels depth := by
    refine notes_guardOverflow ?_
      (List.append_eq_nil_iff.mpr ⟨ha.silent hf levels depth, hb.silent hf levels depth⟩)
    show ((reduce levels depth a).poly.power (reduce levels depth b).poly).hasOverflow = false
    rw [poly_reduce_eq_closedForm, poly_reduce_eq_closedForm, ha.closedForm_eq, hb.closedForm_eq, h,
      hp]

/-- A sum each of whose terms is kept by the zero from which the sum starts. -/
theorem sumOf (hzero : ∀ e ∈ es, Poly.zero.add e.closedForm = e.closedForm)
    (hes : ∀ e ∈ es, e.Silent fragments)
    (h : es.foldl (fun sum e => sum.add e.closedForm) Poly.zero = p)
    (hp : p.hasOverflow = false) : (sumOf es).ClosesTo fragments p where
  closedForm_eq := closedForm_sumOf hzero h hp
  silent hf levels depth := by
    match es with
    | [] => exact notes_guardOverflow rfl rfl
    | [e] => exact hes e List.mem_cons_self hf levels depth
    | e :: e' :: rest =>
        refine notes_guardOverflow ?_ (notes_reduceSum rfl fun d hd => hes d hd hf levels depth)
        rw [poly_reduceSum_eq]
        exact (congrArg Poly.hasOverflow h).trans hp

/-- A product whose first factor is kept by the one from which the product
starts. -/
theorem productOf {first : Formula} (hone : Poly.one.mul first.closedForm = first.closedForm)
    (hes : ∀ e ∈ first :: es, e.Silent fragments)
    (h : es.foldl (fun product e => product.mul e.closedForm) first.closedForm = p)
    (hp : p.hasOverflow = false) : (productOf (first :: es)).ClosesTo fragments p where
  closedForm_eq := closedForm_productOf hone h hp
  silent hf levels depth := by
    match es with
    | [] => exact hes first List.mem_cons_self hf levels depth
    | e :: rest =>
        refine notes_guardOverflow ?_ (notes_reduceProduct rfl fun d hd => hes d hd hf levels depth)
        rw [poly_reduceProduct_eq, List.foldl_cons]
        have hstart : (leaf Poly.one Formula.one []).poly.mul first.closedForm = first.closedForm :=
          hone
        rw [hstart]
        exact (congrArg Poly.hasOverflow h).trans hp

end ClosesTo

end CostAnalysis.Formula
