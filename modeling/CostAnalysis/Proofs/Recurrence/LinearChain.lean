import CostAnalysis.Proofs.Formula.Substitution
import CostAnalysis.Proofs.Growth.Induction
import CostAnalysis.Proofs.Poly.Elementary
import CostAnalysis.Recurrence.Method.Iteration
import Mathlib.Algebra.Polynomial.Roots
import Mathlib.Data.Nat.Cast.SetInterval

/-!
# The sum of a linear chain

A recurrence `T(n) = T(n-b) + f(n)` unfolds to a chain of `n/b` calls, and
`Iteration.linearChain` sums their work: it puts `b·i` for the size in `f`, sums
over `i` from one to `n/b`, and reports the closed form and its class.  For
polynomial work that is what it should be (`linearChain_chainable`): at every
multiple of the stride the closed form has the value of the sum, whatever the
parameters are, and so it does not matter how they are called.

**The name of the index.**  The index has the fixed name `i`, and putting `b·i`
into the work does not keep it apart from a parameter of that name.  Such a
parameter is summed along with the index (`linearChain_captured`), so
`Chainable` asks for work that does not mention it.

**From multiples to all sizes.**  Where the size is no multiple of the stride,
the closed form continues the sum.  That other names lead to the same
continuation follows from the multiples: both closed forms are polynomials in
the size, and these are decided by infinitely many values
(`Poly.Plain.value_eq_of_multiples`).
-/

namespace CostAnalysis

open Finset

namespace Formula

/-! ## Reduction of expandable formulas -/

/-- A natural power of a variable, however great, is one factor. -/
theorem Reduces.power {name : String} (hname : IsName name.toList) {k : ℕ} (hk : k < 2 ^ 63) :
    Reduces (.raised (.var name) (.num (.exact k))) := by
  by_cases hsmall : k ≤ 64
  · exact .raised (fun _ => reduces_var name) hsmall (by simpa [degree] using hk)
  intro levels depth h
  obtain ⟨heq, hnotes, -⟩ := guardOverflow_of_notes h
  obtain ⟨-, hknotes⟩ := List.append_eq_nil_iff.mp hnotes
  have hpower : (Poly.var name).power (Poly.constant (.exact k)) =
      Poly.term 1 (.of (.var name) k) := Poly.power_ofAtom (.var hname) (by omega) hk
  have hterm := Poly.represents_term (Formula.raised (.var name) (.num (.exact k))).admissible 1
    (Monomial.plain_of name (e := k) (by omega) le_rfl)
  rw [reduce, heq, combine, reduce_num hknotes, degree_raised]
  show ((Poly.var name).power (Poly.constant (.exact k))).Represents _ (k * 1) _
  rw [hpower, mul_one]
  refine hterm.congr fun I hI => ?_
  rw [Reading.scalar_one, one_mul, Monomial.value_of, zpow_natCast]
  exact (hI.1 _ k).symm

/-- **Reduction of expandable formulas.** -/
theorem Expandable.reduces {e : Formula} (he : e.Expandable) (hd : e.degree < 2 ^ 63) :
    e.Reduces := by
  induction he with
  | num q => exact reduces_num _
  | var name => exact reduces_var name
  | plus _ ih => exact .plus_of_degree ih hd
  | times _ ih => exact .times_of_degree ih hd
  | minus _ ih => exact .minus (ih hd)
  | quotient _ hq hnum hden ih => exact .over (ih hd) hq hnum hden
  | raised _ hk ih => exact .raised_of_degree ih hk hd
  | power hname k =>
      rw [degree_raised, degree, mul_one] at hd
      exact .power hname hd

end Formula

/-! ## Polynomials in one of their variables

With all other variables fixed, a plain polynomial is one in a single variable,
and is decided by infinitely many of its values. -/

namespace Poly

variable {p q : Poly} {d d' : ℕ}

/-- A plain polynomial contains no opaque fragment. -/
theorem Plain.hasOpaque (hp : p.Plain d) : p.hasOpaque = false := by
  have hfactors : ∀ fs : List (Atom × ℤ), (∀ f ∈ fs, f.1.IsVar) → Atom.anyOpaque fs = false := by
    intro fs
    induction fs with
    | nil => exact fun _ => rfl
    | cons f fs ih =>
        intro hall
        obtain ⟨⟨v, hv⟩, hfs⟩ := List.forall_mem_cons.mp hall
        obtain ⟨a, e⟩ := f
        obtain rfl : a = .var v := hv
        exact ih hfs
  obtain ⟨ts⟩ := p
  induction ts with
  | nil => rfl
  | cons t ts ih =>
      obtain ⟨ht, hts⟩ := List.forall_mem_cons.mp hp
      obtain ⟨⟨fs⟩, c⟩ := t
      exact Bool.or_eq_false_iff.mpr ⟨hfactors fs ht.isVar, ih hts⟩

/-- With all but one variable fixed, the values are those of a polynomial in
that variable. -/
theorem Plain.exists_eval (hp : p.Plain d) (I : Reading) (v : String) :
    ∃ P : Polynomial ℚ, ∀ x, P.eval x = p.value (I.set v x) := by
  obtain ⟨ts⟩ := p
  induction ts with
  | nil => exact ⟨0, fun x => Polynomial.eval_zero⟩
  | cons t ts ih =>
      obtain ⟨ht, hts⟩ := List.forall_mem_cons.mp hp
      obtain ⟨P, hP⟩ := ih hts
      obtain ⟨k, -, -, hrest, hnone, hvalue⟩ := ht.splitVar v
      refine ⟨.C (I.scalar t.2 * (t.1.splitVar v).2.value I) * .X ^ k + P, fun x => ?_⟩
      have hfirst : t.1.value (I.set v x) = x ^ k * (t.1.splitVar v).2.value I := by
        rw [hvalue, hrest.value_set I hnone, Reading.set_var, Function.update_self]
      rw [value_cons, Reading.scalar_set, hfirst, ← hP, Polynomial.eval_add, Polynomial.eval_mul,
        Polynomial.eval_C, Polynomial.eval_pow, Polynomial.eval_X]
      ring

/-- **Multiples decide a polynomial.**  Two plain polynomials that agree
wherever a variable is a multiple of some amount agree wherever else it is. -/
theorem Plain.value_eq_of_multiples (hp : p.Plain d) (hq : q.Plain d') {I J : Reading} {v : String}
    {b : ℕ} (hb : 0 < b)
    (h : ∀ k : ℕ, p.value (I.set v (b * k)) = q.value (J.set v (b * k))) (x : ℚ) :
    p.value (I.set v x) = q.value (J.set v x) := by
  obtain ⟨P, hP⟩ := hp.exists_eval I v
  obtain ⟨Q, hQ⟩ := hq.exists_eval J v
  have hinjective : Function.Injective fun k : ℕ => (b * k : ℚ) := by
    intro k l hkl
    have hb' : (b : ℚ) ≠ 0 := by exact_mod_cast hb.ne'
    exact_mod_cast mul_left_cancel₀ hb' hkl
  have hagree : Set.range (fun k : ℕ => (b * k : ℚ)) ⊆ {x | P.eval x = Q.eval x} := by
    rintro _ ⟨k, rfl⟩
    exact (hP _).trans ((h k).trans (hQ _).symm)
  have heq := Polynomial.eq_of_infinite_eval_eq P Q
    ((Set.infinite_range_of_injective hinjective).mono hagree)
  rw [← hP, heq, hQ]

end Poly

/-! ## Readings with other names -/

namespace Reading

variable (I : Reading)

/-- The reading in which a variable has the value of the one that it is renamed
to. -/
def comap (ρ : String → String) : Reading :=
  I.withVars (I.var ∘ ρ)

theorem ReadsPowers.comap {I : Reading} (hI : I.ReadsPowers) (ρ : String → String) :
    (I.comap ρ).ReadsPowers :=
  hI

/-- A variable that keeps its name to itself can be set before or after the
others are renamed. -/
theorem comap_set {ρ : String → String} {v : String} (hρ : ∀ w, ρ w = v ↔ w = v) (x : ℚ) :
    (I.set v x).comap ρ = (I.comap ρ).set v x := by
  have hvar : Function.update I.var v x ∘ ρ = Function.update (I.var ∘ ρ) v x := by
    funext w
    simp only [Function.comp_apply, Function.update_apply, hρ]
  simp only [comap, withVars, set, hvar]

end Reading

/-! ## The chain -/

namespace Iteration

open Formula

/-- What is put for the size in the work of the `i`-th call from the end. -/
def stride (b : ℕ) : Formula :=
  (Formula.int b).mul (.var "i")

/-- The closed form of the sum over a chain. -/
def closedSum (b : ℕ) (f : Formula) : Poly :=
  (chainSum b f).simplify.poly

/-- What the work of a chain of stride `b` has to be: expandable, without the
name of the index among its variables, with exponents below `2 ^ 63`, and
without a number that overflows on the way.
-/
structure Chainable (b : ℕ) (f : Formula) : Prop where
  admits : Admits "n" (stride b) f
  fresh : "i" ∉ f.varsOutside []
  degree_lt : f.degree + 1 < 2 ^ 63
  notes : (chainSum b f).simplify.notes = []

theorem expandable_int (b : ℕ) : (Formula.int b).Expandable := .num (b : ℤ)

theorem expandable_stride (b : ℕ) : (stride b).Expandable :=
  (expandable_int b).mul (.var "i")

/-- What is put for the size is linear in the index, so that the work keeps its
degree. -/
theorem degree_stride_le (b : ℕ) : (stride b).degree ≤ 1 :=
  degree_mul_le (Formula.int b) (.var "i")

theorem value_stride (b : ℕ) (I : Reading) : (stride b).value I = b * I.var "i" :=
  value_mul I _ _

variable {b : ℕ} {f : Formula} {I : Reading}

theorem fits_of_lt_word (hword : b < 2 ^ 32) : Scalar.fits b = true :=
  Scalar.fits_iff.mpr (by rw [Int.natAbs_natCast]; omega)

/-- The number of calls can be expanded, as the stride is not zero. -/
theorem expandable_calls (hb : 0 < b) (hword : b < 2 ^ 32) :
    ((var "n").div (Formula.int b)).Expandable :=
  Expandable.div (q := (b : ℤ)) (.var "n") (by exact_mod_cast hb.ne')
    (by simpa using fits_of_lt_word hword) (by simp; decide) (div_ne_num rfl _ _)

/-- At a multiple of the stride the number of calls is the factor. -/
theorem value_calls (hb : 0 < b) {k : ℕ} (hn : I.var "n" = b * k) :
    ((var "n").div (Formula.int b)).value I = k := by
  have hb' : (b : ℚ) ≠ 0 := by exact_mod_cast hb.ne'
  rw [value_div _ _ _ (div_ne_num rfl _ _)]
  show I.var "n" / (b : ℤ) = k
  rw [hn, Int.cast_natCast, mul_div_cancel_left₀ _ hb']

namespace Chainable

theorem expandable_body (hf : Chainable b f) : (substitute "n" (stride b) f).Expandable :=
  hf.admits.expandable (expandable_stride b)

/-- The body of the sum, with the index set to `x`, is the work of a call of
size `b·x`. -/
theorem value_body (hf : Chainable b f) (hI : I.ReadsPowers) (x : ℚ) :
    (substitute "n" (stride b) f).value (I.set "i" x) = f.value (I.set "n" (b * x)) := by
  have hcommute : (I.set "i" x).set "n" (b * x) = (I.set "n" (b * x)).set "i" x := by
    simp only [Reading.set]
    rw [Function.update_comm (by decide)]
  rw [hf.admits.value_substitute (hI.set "i" x), value_stride, Reading.set_var,
    Function.update_self, hcommute, hf.admits.value_set hf.fresh]

/-- The sum is reduced to a polynomial that stands for it. -/
theorem reduces (hf : Chainable b f) (hb : 0 < b) (hword : b < 2 ^ 32) :
    (chainSum b f).Reduces := by
  have hcalls := expandable_calls hb hword
  have hcallsdegree : ((var "n").div (Formula.int b)).degree ≤ 1 := degree_div_le _ _
  have hbodydegree := hf.admits.degree_le (degree_stride_le b)
  have hlt := hf.degree_lt
  show ((substitute "n" (stride b) f).sum "i" one ((var "n").div (Formula.int b))).Reduces
  unfold Formula.sum
  split
  · exact reduces_num 0
  · refine .sumOver (hf.expandable_body.reduces (by omega)) (reduces_num 1)
      (hcalls.reduces (by omega)) ?_
    have hmax : Nat.max 1 (Nat.max one.degree ((var "n").div (Formula.int b)).degree) = 1 :=
      Nat.max_eq_left (Nat.max_le.mpr ⟨Nat.zero_le 1, hcallsdegree⟩)
    rw [degree, hmax, mul_one]
    omega

/-- The bounds of the sum are integers if the size is a multiple of the
stride. -/
theorem integralBounds (hf : Chainable b f) (hb : 0 < b) (hword : b < 2 ^ 32) {k : ℕ}
    (hn : I.var "n" = b * k) : (chainSum b f).IntegralBounds I := by
  show ((substitute "n" (stride b) f).sum "i" one ((var "n").div (Formula.int b))).IntegralBounds I
  unfold Formula.sum
  split
  · trivial
  · refine ⟨trivial, (expandable_calls hb hword).integralBounds I,
      ⟨1, k, rfl, value_calls hb hn, by omega⟩, fun x _ => hf.expandable_body.integralBounds _⟩

/-- **The closed form of the sum over a chain**, where the size is a multiple of
the stride. -/
theorem value_closedSum (hf : Chainable b f) (hb : 0 < b) (hword : b < 2 ^ 32) (hI : I.ReadsPowers)
    {k : ℕ} (hn : I.var "n" = b * k) :
    (closedSum b f).value I = ∑ j ∈ Icc 1 k, f.value (I.set "n" (b * j)) := by
  have hvalue : (closedSum b f).value I = (chainSum b f).value I :=
    (hf.reduces hb hword).value_eq (Note.logOf_eq_nil hf.notes)
      ⟨hI, hf.integralBounds hb hword hn⟩
  have hone : ⌈one.value I⌉ = ((1 : ℕ) : ℤ) := Int.ceil_one
  have hcalls : ⌊((var "n").div (Formula.int b)).value I⌋ = (k : ℤ) := by
    rw [value_calls hb hn, Int.floor_natCast]
  have hrange : Icc ((1 : ℕ) : ℤ) (k : ℤ) = (Icc 1 k).map Nat.castEmbedding :=
    coe_injective (by
      rw [coe_map, coe_Icc, coe_Icc]
      exact (Nat.image_cast_int_Icc 1 k).symm)
  rw [hvalue]
  show ((substitute "n" (stride b) f).sum "i" one ((var "n").div (Formula.int b))).value I = _
  rw [value_sum, hone, hcalls, hrange, sum_map]
  refine sum_congr rfl fun j _ => ?_
  rw [hf.value_body hI]
  rfl

theorem exists_plain (hf : Chainable b f) (hb : 0 < b) (hword : b < 2 ^ 32) :
    ∃ d, (closedSum b f).Plain d :=
  ⟨_, (hf.reduces hb hword _ _ (Note.logOf_eq_nil hf.notes)).plain⟩

end Chainable

/-! ## What is reported -/

/-- The closed forms of two works that differ in the names of their parameters
differ so, too. -/
theorem Chainable.value_comap {g : Formula} (hf : Chainable b f) (hg : Chainable b g) (hb : 0 < b)
    (hword : b < 2 ^ 32) {ρ : String → String} (hρ : ∀ v, ρ v = "n" ↔ v = "n")
    (hgf : ∀ I : Reading, g.value I = f.value (I.comap ρ)) (hI : I.ReadsPowers) :
    (closedSum b g).value I = (closedSum b f).value (I.comap ρ) := by
  obtain ⟨d, hplain⟩ := hf.exists_plain hb hword
  obtain ⟨d', hgplain⟩ := hg.exists_plain hb hword
  have hmultiples : ∀ k : ℕ, (closedSum b g).value (I.set "n" (b * k)) =
      (closedSum b f).value ((I.comap ρ).set "n" (b * k)) := by
    intro k
    rw [hg.value_closedSum hb hword (hI.set _ _) (Function.update_self _ _ _),
      hf.value_closedSum hb hword ((hI.comap ρ).set _ _) (Function.update_self _ _ _)]
    refine sum_congr rfl fun j _ => ?_
    rw [Reading.set_set, Reading.set_set, hgf, Reading.comap_set I hρ]
  have hall := hgplain.value_eq_of_multiples hplain hb hmultiples (I.var "n")
  have hsize : (I.comap ρ).var "n" = I.var "n" := congrArg I.var ((hρ "n").mpr rfl)
  rwa [Reading.set_self, ← hsize, Reading.set_self] at hall

/-- **The linear chain.**  For such work, if it is known, a closed form is
reported.  At the multiples of the stride it has the value of the sum, with the
parameters as they are, and under other names of the parameters it is the same
with these names. -/
theorem linearChain_chainable {work : Work} (hknown : work.known = true)
    (hformula : work.formula? = some f) (hf : Chainable b f) (hb : 0 < b) (hword : b < 2 ^ 32) :
    linearChain b work =
        (Growth.ofPoly ["n"] (closedSum b f), some (closedSum b f).compactText) ∧
      (∀ (I : Reading) (k : ℕ), I.ReadsPowers → I.var "n" = b * k →
        (closedSum b f).value I = ∑ j ∈ Icc 1 k, f.value (I.set "n" (b * j))) ∧
      ∀ (g : Formula) (ρ : String → String), Chainable b g → (∀ v, ρ v = "n" ↔ v = "n") →
        (∀ I : Reading, g.value I = f.value (I.comap ρ)) →
        ∀ I : Reading, I.ReadsPowers →
          (closedSum b g).value I = (closedSum b f).value (I.comap ρ) := by
  refine ⟨?_, fun I k hI hn => hf.value_closedSum hb hword hI hn,
    fun g ρ hg hρ hgf I hI => hf.value_comap hg hb hword hρ hgf hI⟩
  obtain ⟨d, hplain⟩ := hf.exists_plain hb hword
  have hverbatim : (Growth.ofPoly ["n"] (chainSum b f).simplify.poly).verbatim = none :=
    Growth.verbatim_ofPoly ["n"] hplain.hasOpaque
  simp only [linearChain, hknown, hformula, hverbatim, Option.isSome_none, Bool.false_eq_true,
    if_false]
  rfl

/-- The work `(m·n + 3)/2` for a parameter `m`. -/
def halvedWork (parameter : String) : Work where
  text := "n"
  growth := Growth.polylog "n" 1 0
  formula? := some (.over (.plus [.times [.var parameter, .var "n"], .num (.exact 3)])
    (.num (.exact 2)))
  known := true

/-- The work `(m·n + 3)/2` is of this kind for every stride that is given, and
the sum is taken for any value of the parameter. -/
theorem linearChain_chainable_halvedWork :
    let f : Formula :=
      .over (.plus [.times [.var "m", .var "n"], .num (.exact 3)]) (.num (.exact 2))
    let g : Formula :=
      .over (.plus [.times [.var "k", .var "n"], .num (.exact 3)]) (.num (.exact 2))
    let ρ : String → String := fun v => if v = "m" then "k" else v
    let I : Reading := { sizedReading 4 with var := fun v => if v = "n" then 4 else 7 }
    (halvedWork "m").formula? = some f ∧
      linearChain 2 (halvedWork "m") =
        (Growth.ofPoly ["n"] (closedSum 2 f), some (closedSum 2 f).compactText) ∧
      (closedSum 2 f).value I = ∑ j ∈ Icc 1 2, f.value (I.set "n" ((2 : ℕ) * (j : ℕ))) ∧
      (closedSum 2 g).value I = (closedSum 2 f).value (I.comap ρ) := by
  intro f g ρ I
  have hadmits : ∀ v, (substitute "n" (stride 2)
      (.plus [.times [.var v, .var "n"], .num (.exact 3)])).asNum? = none →
      Admits "n" (stride 2)
        (.over (.plus [.times [.var v, .var "n"], .num (.exact 3)]) (.num (.exact 2))) := by
    intro v hfold
    have hproduct : Admits "n" (stride 2) (.times [.var v, .var "n"]) :=
      .times (by simp [Admits.var])
    have hnumerator : Admits "n" (stride 2) (.plus [.times [.var v, .var "n"], .num (.exact 3)]) :=
      .plus (by simp [hproduct, Admits.num])
    exact .quotient hnumerator (by decide) (by decide) (by decide) (div_ne_num hfold _ _)
  have hf : Chainable 2 f :=
    ⟨hadmits "m" (by decide +kernel), by decide, by decide, by decide +kernel⟩
  have hg : Chainable 2 g :=
    ⟨hadmits "k" (by decide +kernel), by decide, by decide, by decide +kernel⟩
  have hI : I.ReadsPowers := fun x k => by simp [I, sizedReading]
  -- the renaming leaves the size alone
  have hρ : ∀ v, ρ v = "n" ↔ v = "n" := by
    intro v
    by_cases hv : v = "m" <;> simp [ρ, hv]
  have hrenamed : ∀ J : Reading, g.value J = f.value (J.comap ρ) := fun J => by
    simp [f, g, ρ, value, sumValue, productValue, Reading.comap, Reading.withVars, Reading.scalar]
  obtain ⟨hchain, hvalue, hnames⟩ := @linearChain_chainable 2 f (halvedWork "m") rfl rfl hf
    (by decide) (by decide)
  exact ⟨rfl, hchain, hvalue I 2 hI (by simp [I]; norm_num), hnames g ρ hg hρ hrenamed I hI⟩

/-- The work `n·i`, where `i` is a parameter. -/
def capturedWork : Work where
  text := "n"
  growth := Growth.polylog "n" 1 0
  formula? := some (.times [.var "n", .var "i"])
  known := true

/-- **The name of the index.**  A parameter that is named as the index is summed
along with it and is gone from the closed form.  For size two and the parameter
five its value is five, where the sum is fifteen. -/
theorem linearChain_captured :
    let f : Formula := .times [.var "n", .var "i"]
    let p := closedSum 1 f
    let I : Reading := { sizedReading 2 with var := fun v => if v = "i" then 5 else 2 }
    I.ReadsPowers ∧ capturedWork.known = true ∧ capturedWork.formula? = some f ∧
      linearChain 1 capturedWork = (Growth.ofPoly ["n"] p, some p.compactText) ∧
      f.freeVars = ["i", "n"] ∧ p.freeVars = ["n"] ∧ p.value I = 5 ∧
      ∑ j ∈ Icc 1 2, f.value (I.set "n" (1 * (j : ℕ))) = 15 := by
  intro f p I
  refine ⟨fun x k => by simp [I, sizedReading], rfl, rfl, ?_, by decide +kernel, by decide +kernel,
    by decide +kernel, ?_⟩
  · have hverbatim : (Growth.ofPoly ["n"] (chainSum 1 f).simplify.poly).verbatim = none :=
      Growth.verbatim_ofPoly ["n"] (by decide +kernel)
    have hformula : capturedWork.formula? = some f := rfl
    have hknown : capturedWork.known = true := rfl
    simp only [linearChain, hknown, hformula, hverbatim, Option.isSome_none, Bool.false_eq_true,
      if_false]
    rfl
  · simp [sum_Icc_succ_top, f, value, productValue, I]
    norm_num

end Iteration

end CostAnalysis
