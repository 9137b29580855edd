import CostAnalysis.Proofs.PowerSum

/-!
# Closed forms of sums over an index

`Poly.sumOver` replaces a sum over an index by a closed form, term by term.  For
a plain polynomial every term is `c · index ^ k · rest` with `rest` free of the
index (`Monomial.splitVar`), so its sum over a range of integers is `c · rest`
times a sum of powers.  The bounds are polynomials themselves and may mention
the index; it means the variable outside of the sum there, and the reading of
the bounds is the outer one throughout.

Where no term is left without a closed form, the result stands for the finite
sum, for every reading under which both bounds are integers and the range is at
least empty (`represents_sumOver`).  Such bounds are those of `IntegralRange`.

**An empty range.**  The closed form takes the difference of two values of
Faulhaber's formula, at the upper bound and at one below the lower one.  Where
these are the same the range is empty and the difference is zero, as it should
be; where the upper bound is less, the sum is zero and the difference need not
be.
-/

namespace CostAnalysis

open Finset

/-! ## A variable and the rest

To sum over an index, each term is divided into a power of the index and a part
that does not mention it.  For plain monomials both are products of variables
again, and the value is that of their product. -/

theorem Atom.mentions_var (v w : String) : (Atom.var v).mentions w = (v == w) := rfl

namespace Monomial

variable {m : Monomial} {d : ℕ}

/-- A monomial is its list of factors. -/
@[simp] theorem ofFactors_factors (m : Monomial) : ofFactors m.factors = m := by
  cases m
  rfl

/-- The value of a plain monomial depends on its variables only. -/
theorem Plain.value_set (hm : m.Plain d) (I : Reading) {v : String}
    (hv : ∀ f ∈ m.factors, f.1 ≠ .var v) (x : ℚ) : m.value (I.set v x) = m.value I := by
  rw [value_eq_prod, value_eq_prod]
  congr 1
  refine List.map_congr_left fun f hf => ?_
  obtain ⟨w, hw⟩ := hm.isVar f hf
  have hne : w ≠ v := by
    rintro rfl
    exact hv f hf hw
  simp only [hw, Atom.value, Reading.set_var, Function.update_of_ne hne]

/-- **A variable and the rest.**  The exponent of a variable is a natural, the
rest is plain without that variable, and the value is the product of both. -/
theorem Plain.splitVar (hm : m.Plain d) (v : String) :
    ∃ k : ℕ, k ≤ d ∧ (m.splitVar v).1 = k ∧ (m.splitVar v).2.Plain (d - k) ∧
      (∀ f ∈ (m.splitVar v).2.factors, f.1 ≠ .var v) ∧
      ∀ I, m.value I = I.var v ^ k * (m.splitVar v).2.value I := by
  obtain ⟨before, old?, after, hfactors, hbefore, hafter, halter⟩ := hm.cut v
  obtain ⟨fs⟩ := m
  obtain rfl : fs = _ := hfactors
  obtain ⟨hold, hle, hrest⟩ := plain_without hm
  -- the factors are sorted, so no other one has the same variable
  have hnone : ∀ f ∈ before ++ after, f.1 ≠ .var v := by
    intro f hf
    rcases List.mem_append.mp hf with hf | hf
    · exact (hrest.isVar f (List.mem_append_left _ hf)).ne_of_lt (hbefore f hf)
    · exact ((Atom.isVar_var v).ne_of_lt (hafter f hf)).symm
  have hne : ∀ f ∈ before ++ after, compare (Atom.var v) f.1 ≠ .eq := fun f hf heq =>
    hnone f hf (Atom.eq_of_cmp _ _ heq).symm
  have hfind : Assoc.find? (.var v) (before ++ Assoc.entry (.var v) old? ++ after) = old? := by
    rw [List.append_assoc, Assoc.find?_append_of_ne _ _ fun f hf =>
      hne f (List.mem_append_left _ hf)]
    cases old? with
    | none => exact Assoc.find?_eq_none _ fun f hf => hne f (List.mem_append_right _ hf)
    | some e => exact Assoc.find?_cons_of_eq e after (by simp [Atom.compare_var])
  have hsplit : (ofFactors (before ++ Assoc.entry (.var v) old? ++ after)).splitVar v =
      (old?.getD 0, ofFactors (before ++ after)) := by
    rw [Monomial.splitVar, exponentOf, Assoc.erase, halter]
    simp only [factors, hfind, Assoc.entry_none, List.append_nil]
  rw [hsplit]
  refine ⟨(old?.getD 0).toNat, hle, (Int.toNat_of_nonneg hold).symm, hrest, hnone, fun I => ?_⟩
  rw [value_eq_prod, value_eq_prod, ← zpow_natCast, Int.toNat_of_nonneg hold]
  simp only [factors, List.map_append, List.prod_append, prod_entry, Atom.value]
  ring

/-- A product of powers, built factor by factor. -/
theorem plain_foldl_of {fs : List (Atom × ℤ)} {acc : Monomial} {d' : ℕ} (hacc : acc.Plain d)
    (hvar : ∀ f ∈ fs, f.1.IsVar) (hpos : ∀ f ∈ fs, 0 < f.2) (hdeg : (fs.map Prod.snd).sum ≤ d')
    (hd : d + d' < 2 ^ 63) :
    (fs.foldl (fun acc f => acc.mul (of f.1 f.2)) acc).Plain (d + d') ∧
      ∀ I, (fs.foldl (fun acc f => acc.mul (of f.1 f.2)) acc).value I =
        acc.value I * (ofFactors fs).value I := by
  induction fs generalizing acc d d' with
  | nil => exact ⟨hacc.mono (by omega), fun I => (mul_one _).symm⟩
  | cons f fs ih =>
      obtain ⟨a, e⟩ := f
      obtain ⟨⟨v, rfl⟩, hvars⟩ := List.forall_mem_cons.mp hvar
      obtain ⟨he, hposs⟩ := List.forall_mem_cons.mp hpos
      simp only at he
      simp only [List.map_cons, List.sum_cons] at hdeg
      have hrest : 0 ≤ (fs.map Prod.snd).sum :=
        List.sum_nonneg (List.forall_mem_map.mpr fun f hf => (hposs f hf).le)
      obtain ⟨hfirst, hvalue⟩ := hacc.mul (plain_of v he (d := e.toNat) (by omega)) (by omega)
      have hdeg' : (fs.map Prod.snd).sum ≤ (d' - e.toNat : ℕ) := by omega
      obtain ⟨hall, hvalues⟩ := ih hfirst hvars hposs hdeg' (by omega)
      refine ⟨hall.mono (by omega), fun I => ?_⟩
      rw [List.foldl_cons, hvalues, hvalue, value_of, value_eq_prod I (ofFactors (_ :: fs)),
        value_eq_prod I (ofFactors fs)]
      simp only [factors, List.map_cons, List.prod_cons]
      ring

end Monomial

/-! ## One term

A range has two conditions, integral bounds and a length that is not negative,
and a term needs both: the formula for sums of powers is exact on such ranges
only. -/

/-- Both bounds of a range are integers, and the upper one is at least the lower
one minus one. -/
def IntegralRange (s t : ℚ) : Prop :=
  ∃ a b : ℤ, s = a ∧ t = b ∧ a - 1 ≤ b

namespace Summation

variable {S : Set Reading} {s t : Reading → ℚ} {d D : ℕ} {start stop : Poly}

/-- Over a range of integers the powers add up to the difference of two values
of the formula, also where the range is empty. -/
theorem sum_Icc_pow_of_range (k : ℕ) {s t : ℚ} (h : IntegralRange s t) :
    ∑ i ∈ Icc ⌈s⌉ ⌊t⌋, (i : ℚ) ^ k = faulhaber k t - faulhaber k (s - 1) := by
  obtain ⟨a, b, rfl, rfl, hab⟩ := h
  rw [Int.ceil_intCast, Int.floor_intCast, sum_Icc_pow k hab]

/-- The bound on the degree of a closed form: the power that is summed is raised
by one and multiplied by the degree of the bounds. -/
theorem degree_bound {k : ℕ} (hk : k ≤ d) (hD : 1 ≤ D) : d - k + (k + 1) * D ≤ (d + 1) * D := by
  have hrest : d - k ≤ (d - k) * D := Nat.le_mul_of_pos_right _ hD
  have hsplit : (d - k) * D + (k + 1) * D = (d + 1) * D := by
    rw [← Nat.add_mul]
    congr 1
    omega
  omega

/-- **One term.**  The closed form of a plain term stands for its sum over the
range. -/
theorem represents_termSum? {c : Scalar} {m : Monomial} {index : String} {p : Poly}
    (hm : m.Plain d) (hstart : start.Represents S D s) (hstop : stop.Represents S D t)
    (hrange : ∀ I ∈ S, IntegralRange (s I) (t I)) (hD : 1 ≤ D) (hd : (d + 1) * D < 2 ^ 63)
    (hp : termSum? c m index start stop = some p) :
    p.Represents S ((d + 1) * D) fun I =>
      ∑ x ∈ Icc ⌈s I⌉ ⌊t I⌋, I.scalar c * m.value (I.set index x) := by
  obtain ⟨k, hk, hpower, hrest, hnone, hvalue⟩ := hm.splitVar index
  have hdependent : (m.splitVar index).2.factors.filter (fun f => f.1.mentions index) = [] := by
    refine List.filter_eq_nil_iff.mpr fun f hf => ?_
    obtain ⟨w, hw⟩ := hrest.isVar f hf
    have hne : w ≠ index := fun h => hnone f hf (by rw [hw, h])
    simpa [hw, Atom.mentions_var] using hne
  have hindependent : (m.splitVar index).2.factors.filter (fun f => !f.1.mentions index) =
      (m.splitVar index).2.factors := by
    refine List.filter_eq_self.mpr fun f hf => ?_
    have h := List.filter_eq_nil_iff.mp hdependent f hf
    simpa using h
  simp only [termSum?, hdependent, hindependent, hpower] at hp
  rw [Option.ite_none_right_eq_some] at hp
  obtain ⟨hmax, hp⟩ := hp
  obtain rfl := Option.some.inj hp
  have hk' : k ≤ maxPower := by
    simp only [Bool.and_eq_true, decide_eq_true_eq] at hmax
    exact Int.ofNat_le.mp hmax.2
  have hbound := degree_bound hk hD
  -- the factors without the index, the two sums of powers, and the product of
  -- both
  obtain ⟨hplain, hproduct⟩ := Monomial.plain_foldl_of (Monomial.plain_one 0) hrest.isVar
    hrest.positive hrest.degree_le (by nlinarith)
  rw [zero_add] at hplain
  have houter := Poly.represents_term S c hplain
  have hupper := represents_powerSum hstop hk' (by omega)
  have hlower := represents_powerSum (hstart.sub (Poly.represents_one S D)) hk' (by omega)
  refine ((houter.mul (hupper.sub hlower) (by omega)).mono hbound).congr fun I hI => ?_
  rw [hproduct I, Monomial.value_one, Monomial.ofFactors_factors,
    ← sum_Icc_pow_of_range k (hrange I hI), mul_sum]
  refine sum_congr rfl fun x _ => ?_
  rw [hvalue, hrest.value_set I hnone, Reading.set_var, Function.update_self]
  ring

end Summation

/-! ## All terms

The state of the fold is what was summed so far together with the terms that
were left over.  What was left over stays so, and if nothing is left over at the
end, nothing was at any step. -/

namespace Poly

variable {S : Set Reading} {s t : Reading → ℚ} {d D : ℕ} {start stop : Poly}

/-- A step that leaves nothing unresolved found a closed form and added it. -/
theorem addTerm_of_unresolved {index : String} {outcome : SumOutcome} {t : Monomial × Scalar}
    (h : (outcome.addTerm index start stop t).unresolved = []) :
    outcome.unresolved = [] ∧ ∃ p, Summation.termSum? t.2 t.1 index start stop = some p ∧
      (outcome.addTerm index start stop t).value = outcome.value.add p := by
  by_cases hopaque :
      (t.1.factors.any fun factor => factor.1.isOpaque && factor.1.mentions index) = true
  · simp [SumOutcome.addTerm, hopaque] at h
  · cases hterm : Summation.termSum? t.2 t.1 index start stop with
    | none => simp [SumOutcome.addTerm, hopaque, hterm] at h
    | some p =>
        simp only [SumOutcome.addTerm, hopaque, hterm, Bool.false_eq_true, if_false] at h ⊢
        exact ⟨h, p, rfl, rfl⟩

/-- A term that was left over stays left over. -/
theorem unresolved_of_foldl_addTerm {index : String} {ts : List (Monomial × Scalar)}
    {outcome : SumOutcome}
    (h : (ts.foldl (SumOutcome.addTerm index start stop) outcome).unresolved = []) :
    outcome.unresolved = [] := by
  induction ts generalizing outcome with
  | nil => exact h
  | cons t ts ih => exact (addTerm_of_unresolved (ih h)).1

/-- **Sums over an index.**  Where every term has a closed form, the result
stands for the finite sum over the integers of the range. -/
theorem represents_sumOver {body : Poly} {index : String} (hbody : body.Plain d)
    (hstart : start.Represents S D s) (hstop : stop.Represents S D t)
    (hrange : ∀ I ∈ S, IntegralRange (s I) (t I)) (hD : 1 ≤ D) (hd : (d + 1) * D < 2 ^ 63)
    (h : (body.sumOver index start stop).unresolved = []) :
    (body.sumOver index start stop).value.Represents S ((d + 1) * D) fun I =>
      ∑ x ∈ Icc ⌈s I⌉ ⌊t I⌋, body.value (I.set index x) := by
  obtain ⟨ts⟩ := body
  rw [sumOver] at h ⊢
  -- the loop adds the closed forms of the terms to what it has so far, which
  -- stands for some `f`
  have hloop : ∀ (outcome : SumOutcome) (f : Reading → ℚ),
      outcome.value.Represents S ((d + 1) * D) f →
      (ts.foldl (SumOutcome.addTerm index start stop) outcome).unresolved = [] →
      (ts.foldl (SumOutcome.addTerm index start stop) outcome).value.Represents S ((d + 1) * D)
        fun I => f I + ∑ x ∈ Icc ⌈s I⌉ ⌊t I⌋, (ofTerms ts).value (I.set index x) := by
    clear h
    induction ts with
    | nil =>
        intro outcome f hvalue _
        exact hvalue.congr fun I _ => by simp [value_eq_sum, terms]
    | cons u us ih =>
        intro outcome f hvalue h
        obtain ⟨hu, hus⟩ := List.forall_mem_cons.mp hbody
        obtain ⟨-, p, hp, hadd⟩ := addTerm_of_unresolved (unresolved_of_foldl_addTerm h)
        have hterm := Summation.represents_termSum? hu hstart hstop hrange hD hd hp
        have hstep := ih hus _ _ (hadd ▸ hvalue.add hterm) h
        refine hstep.congr fun I _ => ?_
        simp only [value_cons, Reading.scalar_set, sum_add_distrib]
        rw [add_assoc]
  exact (hloop ⟨zero, []⟩ _ (represents_zero S _) h).congr fun I _ => zero_add _

end Poly

end CostAnalysis
