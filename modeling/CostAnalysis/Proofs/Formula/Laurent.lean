import CostAnalysis.Proofs.Formula.ClosedForm
import CostAnalysis.Proofs.Formula.Value
import CostAnalysis.Proofs.Poly.Laurent
import CostAnalysis.Proofs.Simplification

/-!
# Formulas as Laurent polynomials

Sums, products and opposites are all that simplification computes with; whatever
else a formula is built from enters by its closed form.  `Formula.laurent` reads
a formula in this way, in the ring of Laurent polynomials over the atoms.

**What is asked.**  The closed forms that enter have to be listed in a linear
order (`InOrder`), and the exponents that the formula shows in its structure,
summed up by `Formula.magnitude`, have to fit their words.  Then the closed form
of a formula without notes stands for its Laurent polynomial (`InOrder.stands`),
and so depends on nothing else.

**Why not the value.**  Two formulas with the same value need not have the same
closed form, since a logarithm or a root is an atom whose value is not free.
The Laurent polynomial over the atoms is what the closed form keeps of a
formula, and in a ring the laws are at hand.
-/

namespace CostAnalysis.Formula

variable {a b e : Formula} {ts fs : List Formula} {levels depth : ℕ}

/-! ## Closed forms without notes

Node by node: a reduction without a note is one of all parts without a note, and
then the closed form is the operation of the node.  All later proofs take a
formula apart with these. -/

/-- The formula is reduced without a note. -/
def Quiet (e : Formula) : Prop :=
  ∃ levels depth, (reduce levels depth e).notes = []

/-- That there is no note does not depend on the depth at which a formula is
reduced. -/
theorem quiet_of_notes (h : (reduce levels depth e).notes = []) : e.Quiet :=
  ⟨levels, depth, h⟩

theorem quiet_of_notes_simplify (h : e.simplify.notes = []) : e.Quiet :=
  quiet_of_notes (Note.logOf_eq_nil h)

/-- No coefficient of a closed form is the mark, since the guard at each node
replaces one that is.
-/
theorem exact_closedForm (e : Formula) : e.closedForm.Exact :=
  Poly.exact_of_hasOverflow (hasOverflow_reduce _ _ _)

namespace Quiet

/-- A sum without notes has addends without notes, and its closed form is their
sum. -/
theorem plus (h : (plus ts).Quiet) : (∀ e ∈ ts, e.Quiet) ∧
    (Formula.plus ts).closedForm = ts.foldl (fun sum e => sum.add e.closedForm) Poly.zero := by
  obtain ⟨levels, depth, h⟩ := h
  obtain ⟨-, hsum, hoverflow⟩ := guardOverflow_of_notes h
  rw [poly_reduceSum_eq] at hoverflow
  exact ⟨fun e he => quiet_of_notes (notes_of_mem_reduceSum hsum e he),
    closedForm_plus rfl hoverflow⟩

theorem times (h : (times fs).Quiet) : (∀ e ∈ fs, e.Quiet) ∧
    (Formula.times fs).closedForm =
      fs.foldl (fun product e => product.mul e.closedForm) Poly.one := by
  obtain ⟨levels, depth, h⟩ := h
  obtain ⟨-, hproduct, hoverflow⟩ := guardOverflow_of_notes h
  rw [poly_reduceProduct_eq] at hoverflow
  exact ⟨fun e he => quiet_of_notes (notes_of_mem_reduceProduct hproduct e he),
    closedForm_times rfl hoverflow⟩

theorem minus (h : (minus a).Quiet) :
    a.Quiet ∧ (Formula.minus a).closedForm = a.closedForm.neg := by
  obtain ⟨levels, depth, h⟩ := h
  obtain ⟨-, hnotes, hoverflow⟩ := guardOverflow_of_notes h
  refine ⟨quiet_of_notes hnotes, closedForm_minus rfl ?_⟩
  rw [← poly_reduce_eq_closedForm levels depth]
  exact hoverflow

theorem logOf (h : (logOf a).Quiet) :
    a.Quiet ∧ (Formula.logOf a).closedForm = a.closedForm.log := by
  obtain ⟨levels, depth, h⟩ := h
  obtain ⟨-, hnotes, hoverflow⟩ := guardOverflow_of_notes h
  refine ⟨quiet_of_notes hnotes, closedForm_logOf rfl ?_⟩
  rw [← poly_reduce_eq_closedForm levels depth]
  exact hoverflow

theorem quotient (h : (Formula.over a b).Quiet) :
    a.Quiet ∧ b.Quiet ∧ (Formula.over a b).closedForm = a.closedForm.div b.closedForm := by
  obtain ⟨levels, depth, h⟩ := h
  obtain ⟨-, hnotes, hoverflow⟩ := guardOverflow_of_notes h
  obtain ⟨ha, hb⟩ := List.append_eq_nil_iff.mp hnotes
  refine ⟨quiet_of_notes ha, quiet_of_notes hb, closedForm_over rfl ?_⟩
  rw [← poly_reduce_eq_closedForm levels depth, ← poly_reduce_eq_closedForm levels depth]
  exact hoverflow

theorem raised (h : (raised a b).Quiet) :
    a.Quiet ∧ b.Quiet ∧ (Formula.raised a b).closedForm = a.closedForm.power b.closedForm := by
  obtain ⟨levels, depth, h⟩ := h
  obtain ⟨-, hnotes, hoverflow⟩ := guardOverflow_of_notes h
  obtain ⟨ha, hb⟩ := List.append_eq_nil_iff.mp hnotes
  refine ⟨quiet_of_notes ha, quiet_of_notes hb, closedForm_raised rfl ?_⟩
  rw [← poly_reduce_eq_closedForm levels depth, ← poly_reduce_eq_closedForm levels depth]
  exact hoverflow

theorem sumOver {body start stop : Formula} {index : String}
    (h : (sumOver body index start stop).Quiet) : body.Quiet ∧ start.Quiet ∧ stop.Quiet ∧
      (body.closedForm.sumOver index start.closedForm stop.closedForm).unresolved = [] ∧
      (Formula.sumOver body index start stop).closedForm =
        (body.closedForm.sumOver index start.closedForm stop.closedForm).value := by
  obtain ⟨levels, depth, h⟩ := h
  obtain ⟨heq, hnotes, hoverflow⟩ := guardOverflow_of_notes h
  obtain ⟨hbody, hstart, hstop, hunresolved, hpoly⟩ := resolveSum_of_notes hoverflow hnotes
  simp only [poly_reduce_eq_closedForm] at hunresolved hpoly
  refine ⟨quiet_of_notes hbody, quiet_of_notes hstart, quiet_of_notes hstop, hunresolved, ?_⟩
  rw [← hpoly, ← poly_reduce_eq_closedForm levels depth, reduce, heq]

/-- A fragment is always noted. -/
theorem not_unknown (t : String) : ¬ (unknown t).Quiet := by
  rintro ⟨levels, depth, h⟩
  cases h

end Quiet

/-! ## Leaves -/

/-- A constant other than the mark has no overflow. -/
theorem hasOverflow_constant {v : Scalar} (hv : v.isOverflow = false) :
    (Poly.constant v).hasOverflow = false := by
  rw [Poly.constant, Poly.term]
  split
  · rfl
  · show ((v.isOverflow || false) || false) = false
    rw [hv]
    rfl

theorem quiet_num {v : Scalar} (hv : v.isOverflow = false) : (num v).Quiet :=
  ⟨0, 0, notes_guardOverflow (hasOverflow_constant hv) rfl⟩

/-- A number that is reduced without a note is not the mark. -/
theorem Quiet.exists_num {v : Scalar} (h : (num v).Quiet) : ∃ q, v = .exact q := by
  obtain ⟨levels, depth, h⟩ := h
  cases v with
  | exact q => exact ⟨q, rfl⟩
  | overflow => cases h

theorem closedForm_num_of_exact {v : Scalar} (hv : v.isOverflow = false) :
    (num v).closedForm = Poly.constant v :=
  closedForm_eq rfl rfl (hasOverflow_constant hv)

theorem quiet_resolved {p : Poly} (hp : p.hasOverflow = false) : (resolved p).Quiet :=
  ⟨0, 0, notes_guardOverflow hp rfl⟩

theorem Quiet.hasOverflow_resolved {p : Poly} (h : (resolved p).Quiet) :
    p.hasOverflow = false := by
  obtain ⟨levels, depth, h⟩ := h
  exact (guardOverflow_of_notes h).2.2

theorem closedForm_resolved {p : Poly} (hp : p.hasOverflow = false) :
    (resolved p).closedForm = p :=
  closedForm_eq rfl rfl hp

/-- A closed form that is a constant stands for it. -/
theorem laurent_of_asConstant? {p : Poly} {q : ℚ} (h : p.asConstant? = some (.exact q)) :
    p.laurent = Laurent.evaluation.number q := by
  obtain ⟨ts⟩ := p
  rcases Poly.terms_of_asConstant? h with ⟨hterms, hq⟩ | hterms
  · obtain rfl : ts = [] := hterms
    cases hq
    exact (map_zero _).symm
  · obtain rfl : ts = [(.one, .exact q)] := hterms
    rw [Poly.laurent, Evaluation.total_cons]
    exact (add_zero _).trans (mul_one _)

/-- What plainly is a number is reduced to it, without a note. -/
theorem quiet_of_asNum? {q : ℚ} (h : e.asNum? = some (.exact q)) :
    e.Quiet ∧ e.closedForm.asConstant? = some (.exact q) := by
  cases e with
  | num v =>
      obtain rfl := Option.some.inj h
      refine ⟨quiet_num rfl, ?_⟩
      rw [closedForm_num_of_exact rfl]
      exact asConstant?_constant q
  | resolved p =>
      have hp := Poly.hasOverflow_of_asConstant? h
      refine ⟨quiet_resolved hp, ?_⟩
      rw [closedForm_resolved hp]
      exact h
  | _ => cases h

/-! ## The Laurent polynomial of a formula

`laurent` follows sums, products and opposites, and takes for every other node
what its closed form stands for.  It is a function of the formula alone and
mentions no order of terms, which is what makes it fit for comparing two
formulas. -/

mutual

/-- The Laurent polynomial of a formula.  What is no sum, product or opposite
counts as its closed form. -/
noncomputable def laurent : Formula → Laurent
  | .plus ts => sumLaurent ts
  | .times fs => productLaurent fs
  | .minus a => -laurent a
  | e => e.closedForm.laurent
termination_by structural e => e

/-- The sum of the Laurent polynomials of a list of formulas. -/
noncomputable def sumLaurent : List Formula → Laurent
  | [] => 0
  | e :: es => laurent e + sumLaurent es
termination_by structural es => es

/-- The product of the Laurent polynomials of a list of formulas. -/
noncomputable def productLaurent : List Formula → Laurent
  | [] => 1
  | e :: es => laurent e * productLaurent es
termination_by structural es => es

end

/-- **This is a reading of formulas in a ring**, so that what is known of the
constructors there can be used: folding numbers and flattening sums changes
nothing. -/
theorem ringValue_laurent : RingValue Laurent.evaluation.number laurent where
  plus ts := by
    induction ts with
    | nil => rfl
    | cons t ts ih =>
        rw [List.map_cons, List.sum_cons, ← ih]
        rfl
  times fs := by
    induction fs with
    | nil => rfl
    | cons f fs ih =>
        rw [List.map_cons, List.prod_cons, ← ih]
        rfl
  minus _ := rfl
  of_asNum? {e q} h := by
    have hclosed := laurent_of_asConstant? (quiet_of_asNum? h).2
    cases e with
    | num v => exact hclosed
    | resolved p => exact hclosed
    | _ => cases h

mutual

/-- A bound on the exponents that the closed form of a formula, or of what it is
made of, can have: the magnitudes of closed forms that enter, where those of
factors add up. -/
def magnitude : Formula → ℕ
  | .num _ => 0
  | .plus ts => greatestMagnitude ts
  | .times fs => totalMagnitude fs
  | .minus a => magnitude a
  | .over a b =>
    Nat.max (Formula.over a b).closedForm.magnitude (Nat.max (magnitude a) (magnitude b))
  | .raised a b => Nat.max (raised a b).closedForm.magnitude (Nat.max (magnitude a) (magnitude b))
  | .logOf a => Nat.max (logOf a).closedForm.magnitude (magnitude a)
  | e => e.closedForm.magnitude
termination_by structural e => e

/-- The greatest bound in a list of formulas. -/
def greatestMagnitude : List Formula → ℕ
  | [] => 0
  | e :: es => Nat.max (magnitude e) (greatestMagnitude es)
termination_by structural es => es

/-- The sum of the bounds in a list of formulas. -/
def totalMagnitude : List Formula → ℕ
  | [] => 0
  | e :: es => magnitude e + totalMagnitude es
termination_by structural es => es

end

/-- Formulas without minima and maxima in which every closed form that enters is
listed over the atoms of a class. -/
inductive InOrder (K : Atom → Prop) : Formula → Prop
  | num (v : Scalar) : InOrder K (.num v)
  | unknown (t : String) : InOrder K (.unknown t)
  | var {name : String} (hname : K (.var name)) : InOrder K (.var name)
  | resolved {p : Poly} (hp : p.ListedOver K) : InOrder K (.resolved p)
  | plus {ts : List Formula} (hts : ∀ t ∈ ts, InOrder K t) : InOrder K (.plus ts)
  | times {fs : List Formula} (hfs : ∀ f ∈ fs, InOrder K f) : InOrder K (.times fs)
  | minus {a : Formula} (ha : InOrder K a) : InOrder K (.minus a)
  | quotient {a b : Formula} (ha : InOrder K a) (hb : InOrder K b)
      (hclosed : (Formula.over a b).closedForm.ListedOver K) : InOrder K (.over a b)
  | raised {a b : Formula} (ha : InOrder K a) (hb : InOrder K b)
      (hclosed : (Formula.raised a b).closedForm.ListedOver K) : InOrder K (.raised a b)
  | logOf {a : Formula} (ha : InOrder K a)
      (hclosed : (Formula.logOf a).closedForm.ListedOver K) : InOrder K (.logOf a)
  | sumOver {body start stop : Formula} {index : String}
      (hclosed : (Formula.sumOver body index start stop).closedForm.ListedOver K) :
      InOrder K (.sumOver body index start stop)

/-- The greatest bound is a bound for each. -/
theorem greatestMagnitude_le_iff {B : ℕ} :
    greatestMagnitude ts ≤ B ↔ ∀ t ∈ ts, t.magnitude ≤ B := by
  induction ts with
  | nil => simp [greatestMagnitude]
  | cons t ts ih => rw [greatestMagnitude, Nat.max_le, ih, List.forall_mem_cons]

/-- No factor has a greater bound than all of them together. -/
theorem magnitude_le_of_mem {f : Formula} (hf : f ∈ fs) : f.magnitude ≤ totalMagnitude fs := by
  induction fs with
  | nil => cases hf
  | cons g gs ih =>
      rw [totalMagnitude]
      rcases List.mem_cons.mp hf with rfl | hf
      · exact Nat.le_add_right _ _
      · exact (ih hf).trans (Nat.le_add_left _ _)

section

variable {K : Atom → Prop} (h : Assoc.LinearOn K)
include h

/-- Terms that are added to what stands for `x`. -/
theorem stands_foldl_add {B : ℕ} {x : Laurent} {acc : Poly} (hacc : acc.Stands K B x)
    (hts : ∀ t ∈ ts, t.closedForm.Stands K B t.laurent) :
    (ts.foldl (fun sum t => sum.add t.closedForm) acc).Stands K B (x + sumLaurent ts) := by
  induction ts generalizing acc x with
  | nil => exact (add_zero x).symm ▸ hacc
  | cons t ts ih =>
      obtain ⟨ht, hts⟩ := List.forall_mem_cons.mp hts
      rw [sumLaurent, ← add_assoc]
      exact ih (hacc.add h ht) hts

/-- Factors by which what stands for `x` is multiplied: here the bound grows
with each of them. -/
theorem stands_foldl_mul {B : ℕ} {x : Laurent} {acc : Poly} (hacc : acc.Stands K B x)
    (hfs : ∀ f ∈ fs, f.closedForm.Stands K f.magnitude f.laurent)
    (hB : B + totalMagnitude fs < 2 ^ 63) :
    (fs.foldl (fun product f => product.mul f.closedForm) acc).Stands K (B + totalMagnitude fs)
      (x * productLaurent fs) := by
  induction fs generalizing acc x B with
  | nil => exact (mul_one x).symm ▸ hacc
  | cons f fs ih =>
      obtain ⟨hf, hfs⟩ := List.forall_mem_cons.mp hfs
      rw [totalMagnitude] at hB ⊢
      rw [productLaurent, ← mul_assoc, ← add_assoc]
      exact ih (hacc.mul h hf (by omega)) hfs (by omega)

/-- **The closed form stands for the Laurent polynomial.**  The induction is
over the formula; a note would mean that a coefficient overflowed and a node was
replaced by a fragment. -/
theorem InOrder.stands (he : e.InOrder K) (hquiet : e.Quiet) (hB : e.magnitude < 2 ^ 63) :
    e.closedForm.Stands K e.magnitude e.laurent := by
  induction he with
  | num v =>
      obtain ⟨q, rfl⟩ := hquiet.exists_num
      have hnum := Poly.Stands.constant K q (Formula.num (.exact q)).magnitude
      rwa [← closedForm_num_of_exact rfl, ← ringValue_laurent.num q] at hnum
  | unknown t => exact absurd hquiet (Quiet.not_unknown t)
  | @var name hname =>
      exact ⟨Poly.listedOver_ofAtom hname, le_rfl, fun _ => rfl⟩
  | resolved hp =>
      rw [← closedForm_resolved hquiet.hasOverflow_resolved] at hp
      exact ⟨hp, le_rfl, fun _ => rfl⟩
  | @plus ts _ ih =>
      obtain ⟨hts, hclosed⟩ := hquiet.plus
      have hterms : ∀ t ∈ ts, t.magnitude ≤ greatestMagnitude ts :=
        greatestMagnitude_le_iff.mp le_rfl
      have hsum := stands_foldl_add h (.zero K (greatestMagnitude ts)) fun t ht =>
        (ih t ht (hts t ht) ((hterms t ht).trans_lt hB)).mono (hterms t ht)
      rw [zero_add, ← hclosed] at hsum
      exact hsum
  | @times fs _ ih =>
      obtain ⟨hfs, hclosed⟩ := hquiet.times
      have hproduct := stands_foldl_mul h (.one K 0)
        (fun f hf => ih f hf (hfs f hf) ((magnitude_le_of_mem hf).trans_lt hB))
        (by rw [zero_add]; exact hB)
      rw [zero_add, one_mul, ← hclosed] at hproduct
      exact hproduct
  | minus _ ih =>
      obtain ⟨ha, hclosed⟩ := hquiet.minus
      rw [hclosed]
      exact (ih ha hB).neg
  -- what is no sum, product or opposite stands for its closed form by
  -- definition
  | quotient _ _ hclosed => exact ⟨hclosed, Nat.le_max_left _ _, fun _ => rfl⟩
  | raised _ _ hclosed => exact ⟨hclosed, Nat.le_max_left _ _, fun _ => rfl⟩
  | logOf _ hclosed => exact ⟨hclosed, Nat.le_max_left _ _, fun _ => rfl⟩
  | sumOver hclosed => exact ⟨hclosed, le_rfl, fun _ => rfl⟩

end

end CostAnalysis.Formula
