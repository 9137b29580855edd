import CostAnalysis.Algebra.ClosedForm
import CostAnalysis.Proofs.ClosedSum

/-!
# Simplification keeps the value

`Formula.simplify` turns an arithmetic formula, with summations nested and
shadowed in any way, into a polynomial.  The main statement is `value_simplify`:
a result without notes has the value of the formula.

Two things limit it, and both are on the surface.  Closed forms of sums continue
the finite sum beyond its range, so the bounds of every summation have to be
integers with at most an empty range between them, for all values that the
enclosing indices take (`IntegralBounds`).  Exponents are clamped to 64-bit
words, so the degree that the formula shows in its structure has to stay below
`2 ^ 63` (`degree`).  Overflow is no condition: it leaves a note.

**The shape of the induction.**  A statement about each constructor
(`Reduces.plus`, `Reduces.times`, ...) takes what is known of the parts as
hypotheses, degrees included, and gives it for the whole.  The induction over
formulas only puts these together, and all that it does besides is to pass the
bound on the degree inwards.
-/

namespace CostAnalysis

open Finset

/-- Adding to a log leaves it empty only if there is nothing in it and nothing
to add. -/
theorem Note.recordAll_eq_nil {log notes : List Note} (h : Note.recordAll log notes = []) :
    log = [] ∧ notes = [] := by
  have hgrow : ∀ (log : List Note) (note : Note), Note.record log note ≠ [] := by
    intro log note
    rw [Note.record]
    split
    · next hmem => exact List.ne_nil_of_mem (List.contains_iff_mem.mp hmem)
    · simp
  rw [Note.recordAll] at h
  induction notes generalizing log with
  | nil => exact ⟨h, rfl⟩
  | cons note notes ih => exact absurd (ih h).1 (hgrow log note)

/-- A log is empty only if nothing was ever recorded. -/
theorem Note.logOf_eq_nil {notes : List Note} (h : Note.logOf notes = []) : notes = [] :=
  (Note.recordAll_eq_nil h).2

namespace Formula

/-! ## Arithmetic formulas -/

/-- Formulas that are built from numbers and variables by sums, products,
opposites, division by a number other than zero, natural powers up to 64, and
summations.  A divisor is a number whose parts fit their words, as every number
in a formula has them. -/
inductive Arithmetic : Formula → Prop
  | num (q : ℚ) : Arithmetic (.num (.exact q))
  | var (name : String) : Arithmetic (.var name)
  | plus {ts : List Formula} (hts : ∀ e ∈ ts, Arithmetic e) : Arithmetic (.plus ts)
  | times {fs : List Formula} (hfs : ∀ e ∈ fs, Arithmetic e) : Arithmetic (.times fs)
  | minus {a : Formula} (ha : Arithmetic a) : Arithmetic (.minus a)
  | quotient {a : Formula} {q : ℚ} (ha : Arithmetic a) (hq : q ≠ 0)
      (hnum : Scalar.fits q.num = true) (hden : Scalar.fits q.den = true) :
      Arithmetic (.over a (.num (.exact q)))
  | raised {a : Formula} {k : ℕ} (ha : Arithmetic a) (hk : k ≤ 64) :
      Arithmetic (.raised a (.num (.exact k)))
  | sumOver {body start stop : Formula} {index : String} (hbody : Arithmetic body)
      (hstart : Arithmetic start) (hstop : Arithmetic stop) :
      Arithmetic (.sumOver body index start stop)

/-- The natural that an exponent plainly is. -/
def naturalExponent (e : Formula) : ℕ :=
  ((e.asNum?.map Scalar.numer).getD 0).toNat

mutual

/-- The degree that an arithmetic formula shows in its structure. -/
def degree : Formula → ℕ
  | .var _ => 1
  | .plus ts => greatestDegree ts
  | .times fs => totalDegree fs
  | .minus a => degree a
  | .over a _ => degree a
  | .raised a b => naturalExponent b * degree a
  | .sumOver body _ start stop =>
    (degree body + 1) * Nat.max 1 (Nat.max (degree start) (degree stop))
  | _ => 0
termination_by structural e => e

/-- The greatest degree in a list of formulas. -/
def greatestDegree : List Formula → ℕ
  | [] => 0
  | e :: es => Nat.max (degree e) (greatestDegree es)
termination_by structural es => es

/-- The sum of the degrees of a list of formulas. -/
def totalDegree : List Formula → ℕ
  | [] => 0
  | e :: es => degree e + totalDegree es
termination_by structural es => es

end

mutual

/-- At every summation, for all values that the enclosing indices take, both
bounds are integers and the upper one is at least the lower one minus one. -/
def IntegralBounds : Formula → Reading → Prop
  | .plus ts, I => AllIntegralBounds ts I
  | .times fs, I => AllIntegralBounds fs I
  | .minus a, I => IntegralBounds a I
  | .over a b, I => IntegralBounds a I ∧ IntegralBounds b I
  | .raised a b, I => IntegralBounds a I ∧ IntegralBounds b I
  | .logOf a, I => IntegralBounds a I
  | .minOf a b, I => IntegralBounds a I ∧ IntegralBounds b I
  | .maxOf a b, I => IntegralBounds a I ∧ IntegralBounds b I
  | .sumOver body index start stop, I =>
    IntegralBounds start I ∧ IntegralBounds stop I ∧ IntegralRange (start.value I) (stop.value I) ∧
      ∀ x ∈ Icc ⌈start.value I⌉ ⌊stop.value I⌋, IntegralBounds body (I.set index x)
  | _, _ => True
termination_by structural e => e

/-- The bounds in a list of formulas are integers. -/
def AllIntegralBounds : List Formula → Reading → Prop
  | [], _ => True
  | e :: es, I => IntegralBounds e I ∧ AllIntegralBounds es I
termination_by structural es => es

end

-- the equations of these functions are worked out once, here, and not by each
-- proof below
attribute [local simp] degree greatestDegree totalDegree IntegralBounds AllIntegralBounds reduce
  reduceSum reduceProduct

/-! ## Notes of a reduction

Notes are never taken back: those of a part are among those of the whole.  So a
reduction without notes is one of all the parts without notes, and this is the
form in which the constructors use it.
-/

/-- Without a note nothing overflowed, and the result is what it was. -/
theorem guardOverflow_of_notes {e : Formula} {r : Simplified}
    (h : (guardOverflow e r).notes = []) :
    guardOverflow e r = r ∧ r.notes = [] ∧ r.poly.hasOverflow = false := by
  unfold guardOverflow at h ⊢
  split
  · next hoverflow =>
      rw [if_pos hoverflow] at h
      simp at h
  · next hoverflow =>
      rw [if_neg hoverflow] at h
      exact ⟨rfl, h, by simpa using hoverflow⟩

/-- No reduction leaves an overflow: a node in which a scalar overflowed becomes
a fragment. -/
theorem hasOverflow_reduce (levels depth : ℕ) (e : Formula) :
    (reduce levels depth e).poly.hasOverflow = false := by
  have hguard : ∀ (e : Formula) (r : Simplified), (guardOverflow e r).poly.hasOverflow = false := by
    intro e r
    rw [guardOverflow]
    split
    · rfl
    · next hoverflow => exact Bool.eq_false_iff.mpr hoverflow
  cases e with
  | var name => rfl
  | unknown t => rfl
  | _ => exact hguard _ _

/-- Notes of the sum so far are not lost. -/
theorem notes_of_reduceSum {levels depth : ℕ} {acc : Simplified} {es : List Formula}
    (h : (reduceSum levels depth acc es).notes = []) : acc.notes = [] := by
  induction es generalizing acc with
  | nil => exact h
  | cons e es ih => exact (List.append_eq_nil_iff.mp (ih h)).1

theorem notes_of_reduceProduct {levels depth : ℕ} {acc : Simplified} {es : List Formula}
    (h : (reduceProduct levels depth acc es).notes = []) : acc.notes = [] := by
  induction es generalizing acc with
  | nil => exact h
  | cons e es ih => exact (List.append_eq_nil_iff.mp (ih h)).1

/-- A sum has no notes only if none of its terms has any. -/
theorem notes_of_mem_reduceSum {levels depth : ℕ} {acc : Simplified} {es : List Formula}
    (h : (reduceSum levels depth acc es).notes = []) :
    ∀ e ∈ es, (reduce levels depth e).notes = [] := by
  induction es generalizing acc with
  | nil => simp
  | cons e es ih =>
      rw [reduceSum] at h
      have hfirst := (List.append_eq_nil_iff.mp (notes_of_reduceSum h)).2
      exact List.forall_mem_cons.mpr ⟨hfirst, ih h⟩

/-- A product has no notes only if none of its factors has any. -/
theorem notes_of_mem_reduceProduct {levels depth : ℕ} {acc : Simplified} {es : List Formula}
    (h : (reduceProduct levels depth acc es).notes = []) :
    ∀ e ∈ es, (reduce levels depth e).notes = [] := by
  induction es generalizing acc with
  | nil => simp
  | cons e es ih =>
      rw [reduceProduct] at h
      have hfirst := (List.append_eq_nil_iff.mp (notes_of_reduceProduct h)).2
      exact List.forall_mem_cons.mpr ⟨hfirst, ih h⟩

/-- A summation without notes has parts without notes, and each term of its body
has a closed form. -/
theorem resolveSum_of_notes {levels depth : ℕ} {index : String} {body start stop : Simplified}
    (hoverflow : (resolveSum levels depth index body start stop).poly.hasOverflow = false)
    (hnotes : (resolveSum levels depth index body start stop).notes = []) :
    body.notes = [] ∧ start.notes = [] ∧ stop.notes = [] ∧
      (body.poly.sumOver index start.poly stop.poly).unresolved = [] ∧
      (resolveSum levels depth index body start stop).poly =
        (body.poly.sumOver index start.poly stop.poly).value := by
  simp only [resolveSum] at hoverflow hnotes ⊢
  split at hnotes
  · next hover =>
      rw [if_pos hover] at hoverflow
      rw [hoverflow] at hover
      cases hover
  · next hover =>
      simp only [List.append_eq_nil_iff, List.map_eq_nil_iff] at hnotes
      obtain ⟨⟨⟨hbody, hstart⟩, hstop⟩, hunresolved⟩ := hnotes
      exact ⟨hbody, hstart, hstop, hunresolved, by rw [if_neg hover]⟩

/-! ## One constructor at a time

`Reduces` is the statement of the induction: a note, or a polynomial that stands
for the formula under all admissible readings and shows no greater degree.
There is one lemma for each constructor, with the degrees as hypotheses. -/

/-- The readings that a formula is simplified for. -/
def admissible (e : Formula) : Set Reading :=
  {I | I.ReadsPowers ∧ e.IntegralBounds I}

/-- Reducing the formula leaves a note, or gives a polynomial that stands for
it. -/
def Reduces (e : Formula) : Prop :=
  ∀ levels depth, (reduce levels depth e).notes = [] →
    (reduce levels depth e).poly.Represents e.admissible e.degree e.value

theorem Reduces.value_eq {e : Formula} (he : e.Reduces) {levels depth : ℕ}
    (h : (reduce levels depth e).notes = []) {I : Reading} (hI : I ∈ e.admissible) :
    (reduce levels depth e).poly.value I = e.value I :=
  (he levels depth h).value_eq I hI (Poly.exact_of_hasOverflow (hasOverflow_reduce levels depth e))

/-- A number is its own reduction. -/
theorem reduce_num {levels depth : ℕ} {v : Scalar} (h : (reduce levels depth (.num v)).notes = []) :
    (reduce levels depth (.num v)).poly = Poly.constant v := by
  have heq := (guardOverflow_of_notes h).1
  exact congrArg Simplified.poly heq

/-- A number stands for itself. -/
theorem reduces_num (v : Scalar) : Reduces (.num v) := by
  intro levels depth h
  rw [reduce_num h]
  exact Poly.represents_constant _ v 0

theorem reduces_var (name : String) : Reduces (.var name) :=
  fun _ _ _ => Poly.represents_var _ name

/-- Integral bounds in a list are integral in each formula of it. -/
theorem integralBounds_of_mem {es : List Formula} {I : Reading} (h : AllIntegralBounds es I) :
    ∀ e ∈ es, e.IntegralBounds I := by
  induction es with
  | nil => simp
  | cons e es ih => exact List.forall_mem_cons.mpr ⟨h.1, ih h.2⟩

theorem allIntegralBounds_of_forall {es : List Formula} {I : Reading}
    (h : ∀ e ∈ es, e.IntegralBounds I) : AllIntegralBounds es I := by
  induction es with
  | nil => trivial
  | cons e es ih => exact ⟨h e List.mem_cons_self, ih fun e he => h e (List.mem_cons_of_mem _ he)⟩

/-- **Sums**, addend by addend: the polynomial so far stands for the sum so
far. -/
theorem Reduces.plus {ts : List Formula} (hts : ∀ e ∈ ts, Reduces e) : Reduces (.plus ts) := by
  intro levels depth h
  obtain ⟨heq, hnotes, -⟩ := guardOverflow_of_notes h
  have hadmissible : ∀ e ∈ ts, (Formula.plus ts).admissible ⊆ e.admissible :=
    fun e he I hI => ⟨hI.1, integralBounds_of_mem hI.2 e he⟩
  generalize (Formula.plus ts).admissible = S at hadmissible ⊢
  -- what has been added so far stands for some `f`, and the rest is added to it
  have hloop : ∀ (acc : Simplified) (f : Reading → ℚ) (D : ℕ), acc.poly.Represents S D f →
      greatestDegree ts ≤ D → (reduceSum levels depth acc ts).notes = [] →
      (reduceSum levels depth acc ts).poly.Represents S D fun I => f I + sumValue ts I := by
    clear h heq hnotes
    induction ts with
    | nil =>
        intro acc f D hacc _ _
        simp only [sumValue, add_zero]
        exact hacc
    | cons e es ih =>
        intro acc f D hacc hD h
        obtain ⟨he, hes⟩ := List.forall_mem_cons.mp hts
        obtain ⟨hSe, hSes⟩ := List.forall_mem_cons.mp hadmissible
        rw [greatestDegree] at hD
        rw [reduceSum] at h ⊢
        have hnotes := (List.append_eq_nil_iff.mp (notes_of_reduceSum h)).2
        have hfirst := ((he levels depth hnotes).subset hSe).mono ((Nat.le_max_left _ _).trans hD)
        have hrest := ih hes hSes _ _ D (hacc.add hfirst) ((Nat.le_max_right _ _).trans hD) h
        exact hrest.congr fun I _ => by rw [sumValue, add_assoc]
  rw [reduce, heq]
  exact (hloop _ _ _ (Poly.represents_zero S _) le_rfl hnotes).congr fun I _ => zero_add _

/-- **Products**, factor by factor: besides, the degree so far is the sum of the
degrees, and stays within its word. -/
theorem Reduces.times {fs : List Formula} (hfs : ∀ e ∈ fs, Reduces e)
    (hd : totalDegree fs < 2 ^ 63) : Reduces (.times fs) := by
  intro levels depth h
  obtain ⟨heq, hnotes, -⟩ := guardOverflow_of_notes h
  have hadmissible : ∀ e ∈ fs, (Formula.times fs).admissible ⊆ e.admissible :=
    fun e he I hI => ⟨hI.1, integralBounds_of_mem hI.2 e he⟩
  generalize (Formula.times fs).admissible = S at hadmissible ⊢
  -- here the degree grows with each factor, so the bound on all of it is needed
  -- in every round
  have hloop : ∀ (acc : Simplified) (f : Reading → ℚ) (D : ℕ), acc.poly.Represents S D f →
      D + totalDegree fs < 2 ^ 63 → (reduceProduct levels depth acc fs).notes = [] →
      (reduceProduct levels depth acc fs).poly.Represents S (D + totalDegree fs)
        fun I => f I * productValue fs I := by
    clear h heq hnotes hd
    induction fs with
    | nil =>
        intro acc f D hacc _ _
        simp only [productValue, mul_one]
        exact hacc
    | cons e es ih =>
        intro acc f D hacc hD h
        obtain ⟨he, hes⟩ := List.forall_mem_cons.mp hfs
        obtain ⟨hSe, hSes⟩ := List.forall_mem_cons.mp hadmissible
        rw [totalDegree] at hD ⊢
        rw [reduceProduct] at h ⊢
        have hnotes := (List.append_eq_nil_iff.mp (notes_of_reduceProduct h)).2
        have hfirst := hacc.mul ((he levels depth hnotes).subset hSe) (by omega)
        have hrest := ih hes hSes _ _ _ hfirst (by omega) h
        rw [← add_assoc]
        exact hrest.congr fun I _ => by rw [productValue, mul_assoc]
  have hall := hloop _ _ 0 (Poly.represents_one S 0) (by omega) hnotes
  rw [zero_add] at hall
  rw [reduce, heq]
  exact hall.congr fun I _ => one_mul _

/-- **Opposites.** -/
theorem Reduces.minus {a : Formula} (ha : Reduces a) : Reduces (.minus a) := by
  intro levels depth h
  obtain ⟨heq, hnotes, -⟩ := guardOverflow_of_notes h
  rw [reduce, heq]
  exact (ha levels depth hnotes).neg

/-- A constant polynomial shows its constant. -/
theorem asConstant?_constant (q : ℚ) :
    (Poly.constant (.exact q)).asConstant? = some (.exact q) := by
  by_cases hq : q = 0
  · subst hq
    rfl
  · have hzero := Scalar.isZero_exact_of_ne hq
    simp [Poly.constant, Poly.term, hzero, Poly.asConstant?, Poly.terms, Monomial.isOne,
      Monomial.one, Monomial.factors]

/-- A division by a number other than zero multiplies by its reciprocal. -/
theorem div_of_asConstant? {q : ℚ} {r : Poly} (hr : r.asConstant? = some (.exact q)) (hq : q ≠ 0)
    (hnum : Scalar.fits q.num = true) (hden : Scalar.fits q.den = true) (p : Poly) :
    p.div r = p.scale (1 * .exact q⁻¹) := by
  have hdiv : (1 : Scalar).div? (.exact q) = some (1 * .exact q⁻¹) := by
    rw [Scalar.div?, Scalar.recip?_exact hq hnum hden]
    rfl
  simp only [Poly.div, hr, hdiv]

theorem div_constant {q : ℚ} (hq : q ≠ 0) (hnum : Scalar.fits q.num = true)
    (hden : Scalar.fits q.den = true) (p : Poly) :
    p.div (Poly.constant (.exact q)) = p.scale (1 * .exact q⁻¹) :=
  div_of_asConstant? (asConstant?_constant q) hq hnum hden p

/-- A natural power up to 64 is expanded. -/
theorem power_of_asConstant? {k : ℕ} {r : Poly} (hr : r.asConstant? = some (.exact k))
    (hk : k ≤ 64) (p : Poly) : p.power r = p.powNat k := by
  have hint : (Scalar.exact (k : ℚ)).toInt?.filter (fun z => -64 ≤ z && z ≤ 64) = some (k : ℤ) := by
    have hrange : (-64 : ℤ) ≤ k ∧ (k : ℤ) ≤ 64 := by omega
    simp [Scalar.toInt?, Scalar.isInteger, Scalar.denom, Scalar.numer, hrange]
  simp only [Poly.power, hr, Poly.powRational, hint, Poly.powInt]
  rw [if_neg (by omega), Int.natAbs_natCast]

theorem power_natCast {k : ℕ} (hk : k ≤ 64) (p : Poly) :
    p.power (Poly.constant (.exact k)) = p.powNat k :=
  power_of_asConstant? (asConstant?_constant k) hk p

/-- **Quotients** by a number other than zero. -/
theorem Reduces.over {a : Formula} {q : ℚ} (ha : Reduces a) (hq : q ≠ 0)
    (hnum : Scalar.fits q.num = true) (hden : Scalar.fits q.den = true) :
    Reduces (.over a (.num (.exact q))) := by
  intro levels depth h
  obtain ⟨heq, hnotes, -⟩ := guardOverflow_of_notes h
  obtain ⟨hanotes, hqnotes⟩ := List.append_eq_nil_iff.mp hnotes
  rw [reduce, heq, combine, reduce_num hqnotes, div_constant hq hnum hden]
  have hsubset : (Formula.over a (.num (.exact q))).admissible ⊆ a.admissible :=
    fun I hI => ⟨hI.1, hI.2.1⟩
  refine (((ha levels depth hanotes).subset hsubset).scale
    ((Scalar.Denotes.exact 1).mul (.exact q⁻¹))).congr fun I _ => ?_
  rw [value, value, Reading.scalar_exact, one_mul, mul_comm, ← div_eq_mul_inv]

theorem degree_raised (a : Formula) (k : ℕ) :
    (Formula.raised a (.num (.exact k))).degree = k * a.degree := by
  simp [degree, naturalExponent, asNum?, Scalar.numer]

/-- **Powers**, with nothing asked of the base if the exponent is zero. -/
theorem Reduces.raised {a : Formula} {k : ℕ} (ha : 0 < k → Reduces a) (hk : k ≤ 64)
    (hd : k * a.degree < 2 ^ 63) : Reduces (.raised a (.num (.exact k))) := by
  intro levels depth h
  obtain ⟨heq, hnotes, -⟩ := guardOverflow_of_notes h
  obtain ⟨hanotes, hknotes⟩ := List.append_eq_nil_iff.mp hnotes
  have hvalue : ∀ I ∈ (Formula.raised a (.num (.exact k))).admissible,
      a.value I ^ k = (Formula.raised a (.num (.exact k))).value I := fun I hI => (hI.1 _ k).symm
  rw [reduce, heq, combine, reduce_num hknotes, degree_raised, power_natCast hk]
  -- the power zero may have any base, also one whose exponents were clamped
  rcases Nat.eq_zero_or_pos k with rfl | hpos
  · rw [zero_mul]
    exact (Poly.represents_one _ 0).congr fun I hI => (pow_zero _).symm.trans (hvalue I hI)
  · have hsubset : (Formula.raised a (.num (.exact k))).admissible ⊆ a.admissible :=
      fun I hI => ⟨hI.1, hI.2.1⟩
    exact (((ha hpos levels depth hanotes).subset hsubset).powNat k hd).congr hvalue

/-- **Summations**: the bounds are integral under the reading outside, and the
body is read with the index set to each number of the range. -/
theorem Reduces.sumOver {body start stop : Formula} {index : String} (hbody : Reduces body)
    (hstart : Reduces start) (hstop : Reduces stop)
    (hd : (Formula.sumOver body index start stop).degree < 2 ^ 63) :
    Reduces (.sumOver body index start stop) := by
  intro levels depth h
  obtain ⟨heq, hnotes, hoverflow⟩ := guardOverflow_of_notes h
  obtain ⟨hbnotes, hsnotes, htnotes, hunresolved, hpoly⟩ := resolveSum_of_notes hoverflow hnotes
  rw [reduce, heq, hpoly]
  rw [degree] at hd ⊢
  have hsubstart : (Formula.sumOver body index start stop).admissible ⊆ start.admissible :=
    fun I hI => ⟨hI.1, hI.2.1⟩
  have hsubstop : (Formula.sumOver body index start stop).admissible ⊆ stop.admissible :=
    fun I hI => ⟨hI.1, hI.2.2.1⟩
  have hs := ((hstart levels depth hsnotes).subset hsubstart).mono
    ((Nat.le_max_left _ _).trans (Nat.le_max_right 1 (Nat.max start.degree stop.degree)))
  have ht := ((hstop levels depth htnotes).subset hsubstop).mono
    ((Nat.le_max_right _ _).trans (Nat.le_max_right 1 (Nat.max start.degree stop.degree)))
  refine (Poly.represents_sumOver (hbody levels (depth + 1) hbnotes).plain hs ht
    (fun I hI => hI.2.2.2.1) (Nat.le_max_left 1 _) hd hunresolved).congr fun I hI => ?_
  -- the body is read with the index set to each integer of the range
  rw [value]
  exact sum_congr rfl fun x hx => hbody.value_eq hbnotes ⟨hI.1.set index x, hI.2.2.2.2 x hx⟩

/-! ## All constructors -/

/-- No term has a greater degree than the greatest. -/
theorem degree_le_greatestDegree {e : Formula} {es : List Formula} (he : e ∈ es) :
    e.degree ≤ greatestDegree es := by
  induction es with
  | nil => cases he
  | cons e' es ih =>
      rw [greatestDegree]
      rcases List.mem_cons.mp he with rfl | he
      · exact Nat.le_max_left _ _
      · exact (ih he).trans (Nat.le_max_right _ _)

theorem degree_le_totalDegree {e : Formula} {es : List Formula} (he : e ∈ es) :
    e.degree ≤ totalDegree es := by
  induction es with
  | nil => cases he
  | cons e' es ih =>
      rw [totalDegree]
      rcases List.mem_cons.mp he with rfl | he
      · exact Nat.le_add_right _ _
      · exact (ih he).trans (Nat.le_add_left _ _)

/-- Every part of a summation has at most the degree of the summation. -/
theorem degree_sumOver_ge (body start stop : Formula) (index : String) :
    body.degree ≤ (Formula.sumOver body index start stop).degree ∧
      start.degree ≤ (Formula.sumOver body index start stop).degree ∧
      stop.degree ≤ (Formula.sumOver body index start stop).degree := by
  rw [degree]
  have hbody : body.degree + 1 ≤
      (body.degree + 1) * Nat.max 1 (Nat.max start.degree stop.degree) :=
    Nat.le_mul_of_pos_right _ (Nat.le_max_left 1 _)
  have hbounds : Nat.max 1 (Nat.max start.degree stop.degree) ≤
      (body.degree + 1) * Nat.max 1 (Nat.max start.degree stop.degree) :=
    Nat.le_mul_of_pos_left _ (Nat.succ_pos _)
  have hmax := Nat.le_max_right 1 (Nat.max start.degree stop.degree)
  exact ⟨by omega, ((Nat.le_max_left _ _).trans hmax).trans hbounds,
    ((Nat.le_max_right _ _).trans hmax).trans hbounds⟩

/-! ### Degrees that fit

The degree of a sum over an index is one more than that of its body, so a bound
for the whole formula is one for all of its parts, and no exponent is clamped on
the way. -/

/-- The operands of a sum need only reduce where their degrees fit. -/
theorem Reduces.plus_of_degree {ts : List Formula}
    (hts : ∀ e ∈ ts, e.degree < 2 ^ 63 → Reduces e) (hd : (Formula.plus ts).degree < 2 ^ 63) :
    Reduces (.plus ts) := by
  rw [degree] at hd
  exact .plus fun e he => hts e he ((degree_le_greatestDegree he).trans_lt hd)

/-- So the degree of a product bounds those of its factors. -/
theorem Reduces.times_of_degree {fs : List Formula}
    (hfs : ∀ e ∈ fs, e.degree < 2 ^ 63 → Reduces e) (hd : (Formula.times fs).degree < 2 ^ 63) :
    Reduces (.times fs) := by
  rw [degree] at hd
  exact .times (fun e he => hfs e he ((degree_le_totalDegree he).trans_lt hd)) hd

theorem Reduces.raised_of_degree {a : Formula} {k : ℕ} (ha : a.degree < 2 ^ 63 → Reduces a)
    (hk : k ≤ 64) (hd : (Formula.raised a (.num (.exact k))).degree < 2 ^ 63) :
    Reduces (.raised a (.num (.exact k))) := by
  rw [degree_raised] at hd
  exact .raised (fun hpos => ha ((Nat.le_mul_of_pos_left _ hpos).trans_lt hd)) hk hd

/-- **Reduction of arithmetic formulas.**  The induction is over the formula;
the degree bounds the degrees of all parts that the result depends on. -/
theorem Arithmetic.reduces {e : Formula} (he : e.Arithmetic) (hd : e.degree < 2 ^ 63) :
    e.Reduces := by
  induction he with
  | num q => exact reduces_num _
  | var name => exact reduces_var name
  | plus _ ih => exact .plus_of_degree ih hd
  | times _ ih => exact .times_of_degree ih hd
  | minus _ ih => exact .minus (ih hd)
  | quotient _ hq hnum hden ih => exact .over (ih hd) hq hnum hden
  | raised _ hk ih => exact .raised_of_degree ih hk hd
  | @sumOver body start stop index _ _ _ ihbody ihstart ihstop =>
      obtain ⟨hbody, hstart, hstop⟩ := degree_sumOver_ge body start stop index
      exact .sumOver (ihbody (hbody.trans_lt hd)) (ihstart (hstart.trans_lt hd))
        (ihstop (hstop.trans_lt hd)) hd

/-- **Simplification keeps the value.**  If simplifying an arithmetic formula
leaves no note, then the polynomial has the value of the formula under every
reading for which the bounds of all summations are integers with at most an
empty range between them. -/
theorem value_simplify {e : Formula} (he : e.Arithmetic) (hd : e.degree < 2 ^ 63)
    (hnotes : e.simplify.notes = []) {I : Reading} (hI : I.ReadsPowers)
    (hbounds : e.IntegralBounds I) : e.simplify.poly.value I = e.value I :=
  (he.reduces hd).value_eq (Note.logOf_eq_nil hnotes) ⟨hI, hbounds⟩

/-- The index of the inner summation hides that of the outer one, which its
upper bound mentions. -/
def shadowedSum : Formula :=
  .sumOver (.sumOver (.var "i") "i" (.num (.exact 1)) (.var "i")) "i" (.num (.exact 1)) (.var "n")

/-- The summation in `shadowedSum` is resolved without a note, and the value is
that of the double sum. -/
theorem value_simplify_shadowedSum :
    shadowedSum.simplify.notes = [] ∧ shadowedSum.IntegralBounds (sizedReading 3) ∧
      shadowedSum.simplify.poly.value (sizedReading 3) = shadowedSum.value (sizedReading 3) := by
  have hnotes : shadowedSum.simplify.notes = [] := by decide +kernel
  have harith : shadowedSum.Arithmetic :=
    .sumOver (.sumOver (.var _) (.num 1) (.var _)) (.num 1) (.var _)
  have hrange : ∀ n : ℕ, IntegralRange 1 n := fun n => ⟨1, n, by simp, by simp, by omega⟩
  have hbounds : shadowedSum.IntegralBounds (sizedReading 3) := by
    refine ⟨trivial, trivial, hrange 3, fun x hx => ⟨trivial, trivial, ?_, fun _ _ => trivial⟩⟩
    simp only [value, sizedReading, Reading.scalar_exact, Int.ceil_one, Int.floor_natCast,
      mem_Icc] at hx
    lift x to ℕ using by omega
    simpa [value] using hrange x
  have hpowers : (sizedReading 3).ReadsPowers := fun x k => by simp [sizedReading]
  exact ⟨hnotes, hbounds, value_simplify harith (by decide) hnotes hpowers hbounds⟩

end Formula

end CostAnalysis
