import CostAnalysis.Algebra.Poly.Power
import CostAnalysis.Proofs.Poly.Uniqueness

/-!
# Extrema pick by value

The minimum of two polynomials whose difference is a constant is one of them,
and which one is read off the sign of the difference.  Any other two polynomials
become an atom, the lesser of them first.  That this picks by value, and the
same in either order (`Poly.extremum_picks`), takes three facts:

* the order that the operands of an atom are put in turns around with them, also
  where the scalars are compared as rounded quotients (`Poly.cmp_swap`);
* one difference is constant where the other one is, coefficient by coefficient
  (`Poly.Ordered.isSome_asConstant?_sub`);
* an exact difference has the difference of the values.

**The difference has to be exact.**  The mark of an overflow counts as not
negative, so of two constants whose difference does not fit the second one would
be their minimum, whichever it is (`Poly.extremum_picks_overflow`).
-/

namespace CostAnalysis

open Float.Model (UnpackedFloat)

/-! ## Orders turn around

Each order is a comparison by parts, down to floats for scalars.  It turns
around because that of each part does; equal parts on both sides are passed over
alike. -/

namespace Scalar

/-- The order of unpacked floating-point numbers turns around, also with
infinities and where two are not comparable. -/
theorem unpacked_compare_swap (a b : UnpackedFloat) :
    b.compare a = (a.compare b).map Ordering.swap := by
  have hsign : ∀ s t : UnpackedFloat.Sign, compare t s = (compare s t).swap := by
    rintro ⟨⟩ ⟨⟩ <;> rfl
  have hparts : ∀ (m n : ℕ) (e f : ℤ), (compare f e).then (compare n m) =
      ((compare e f).then (compare m n)).swap := by
    intro m n e f
    rw [Ordering.swap_then, ← Std.OrientedOrd.eq_swap, ← Std.OrientedOrd.eq_swap]
  -- only two finite numbers are compared by their parts; a sign or a kind
  -- decides the other cases
  cases a with
  | notANumber => cases b <;> rfl
  | infinity s =>
      cases b with
      | infinity t => exact congrArg some (hsign s t)
      | _ => cases s <;> rfl
  | zero s =>
      cases b with
      | infinity t => cases t <;> rfl
      | finite t n f hn => cases t <;> rfl
      | _ => rfl
  | finite s m e hm =>
      cases b with
      | infinity t => cases t <;> rfl
      | notANumber => cases s <;> rfl
      | zero t => cases s <;> rfl
      | finite t n f hn =>
          match s, t with
          | .positive, .positive => exact congrArg some (hparts m n e f)
          | .positive, .negative => rfl
          | .negative, .positive => rfl
          | .negative, .negative => exact congrArg (fun o => some o.swap) (hparts m n e f)

/-- So no two numbers in double precision are each less than the other. -/
theorem double_lt_asymm {x y : Float} (h : x < y) : ¬ y < x := by
  intro h'
  have hlt : ∀ {x y : Float}, x < y → x.toModel.unpack.compare y.toModel.unpack = some .lt := by
    intro x y h
    have hmodel : x.toModel < y.toModel := of_decide_eq_true h
    exact eq_of_beq hmodel
  have hswap := unpacked_compare_swap x.toModel.unpack y.toModel.unpack
  rw [hlt h, hlt h'] at hswap
  cases hswap

theorem cmpExact_swap (x y : ℚ) : cmpExact y x = (cmpExact x y).swap := by
  simp only [cmpExact]
  rw [Bool.and_comm]
  split
  · exact Std.OrientedOrd.eq_swap
  · by_cases hlt : (exact x).toDouble < (exact y).toDouble
    · rw [if_pos hlt, if_neg (double_lt_asymm hlt), if_pos hlt]
      rfl
    · by_cases hgt : (exact y).toDouble < (exact x).toDouble
      · rw [if_pos hgt, if_neg hlt, if_pos hgt]
        rfl
      · rw [if_neg hgt, if_neg hlt, if_neg hlt, if_neg hgt, Ordering.swap_then,
          ← Std.OrientedOrd.eq_swap, ← Std.OrientedOrd.eq_swap]

/-- The order of scalars turns around, rounded or not. -/
theorem cmp_swap (x y : Scalar) : y.cmp x = (x.cmp y).swap := by
  cases x with
  | overflow => cases y <;> rfl
  | exact p =>
      cases y with
      | overflow => rfl
      | exact q => exact cmpExact_swap p q

/-- A difference that is zero is one of equal scalars. -/
theorem eq_of_isZero_add_neg {x y : Scalar} (h : (x + -y).isZero = true) : x = y := by
  rcases add_cases x (-y) with hover | ⟨p, r, rfl, hr, hsum⟩
  · rw [hover] at h
    cases h
  · rcases neg_cases y with hover | ⟨q, rfl, hneg⟩
    · rw [hover] at hr
      cases hr
    · rw [hneg] at hr
      rw [hsum, isZero_exact, ← exact.inj hr] at h
      rw [add_neg_eq_zero.mp h]

end Scalar

/-- A linear order turns around. -/
theorem Assoc.LinearOn.compare_swap {κ : Type u} [Ord κ] {K : κ → Prop} (h : LinearOn K) {k k' : κ}
    (hk : K k) (hk' : K k') : compare k' k = (compare k k').swap := by
  cases hcmp : compare k k' with
  | lt =>
      cases hback : compare k' k with
      | lt => exact absurd (h.lt_trans hk hk' hk hcmp hback) (h.irrefl hk)
      | eq =>
          rw [h.eq_of_eq hback] at hcmp
          exact absurd hcmp (h.irrefl hk')
      | gt => rfl
  | eq =>
      rw [h.eq_of_eq hcmp]
      exact h.compare_self hk
  | gt => exact h.lt_of_gt hk hk' hcmp

namespace Poly

variable {p q : Poly} {m : Monomial}

/-- The order of polynomials over variables turns around. -/
theorem cmp_swap (hp : p.Over Monomial.OverVars) (hq : q.Over Monomial.OverVars) :
    q.cmp p = (p.cmp q).swap := by
  obtain ⟨ts⟩ := p
  obtain ⟨us⟩ := q
  show Monomial.cmpTerms us ts = (Monomial.cmpTerms ts us).swap
  induction ts generalizing us with
  | nil => cases us <;> rfl
  | cons t ts ih =>
      cases us with
      | nil => rfl
      | cons u us =>
          obtain ⟨ht, hts⟩ := List.forall_mem_cons.mp hp
          obtain ⟨hu, hus⟩ := List.forall_mem_cons.mp hq
          have hkeys : u.1.cmp t.1 = (t.1.cmp u.1).swap :=
            Monomial.linearOn_overVars.compare_swap ht hu
          simp only [Monomial.cmpTerms, Ordering.swap_then, hkeys, Scalar.cmp_swap t.2 u.2,
            ih hts us hus]

/-! ## Differences, coefficient by coefficient

A difference is looked at through what it has for a monomial.  A coefficient
that vanishes in one difference does so in the other, because only equal numbers
cancel. -/

/-- What becomes of a coefficient, zero if there is none, when `c` is added. -/
def coefficientWith (old? : Option Scalar) (c : Scalar) : Option Scalar :=
  if (old?.getD 0 + c).isZero then none else some (old?.getD 0 + c)

/-- **Looking up in a sum.**  Adding terms one by one changes the coefficient of
a monomial once, where the term with this monomial comes, as no monomial comes
twice. -/
theorem find?_foldl_addTerm {us : List (Monomial × Scalar)} (hp : p.Ordered) (hm : m.OverVars)
    (hkeys : ∀ u ∈ us, u.1.OverVars) (hdistinct : us.Pairwise fun u v => u.1 ≠ v.1) :
    Assoc.find? m (us.foldl (fun acc u => acc.addTerm u.1 u.2) p).terms =
      (Assoc.find? m us).elim (Assoc.find? m p.terms)
        (coefficientWith (Assoc.find? m p.terms)) := by
  induction us generalizing p with
  | nil => rfl
  | cons u us ih =>
      obtain ⟨hu, hus⟩ := List.forall_mem_cons.mp hkeys
      obtain ⟨hother, hdistinct⟩ := List.pairwise_cons.mp hdistinct
      rw [List.foldl_cons, ih (hp.addTerm hu u.2) hus hdistinct]
      by_cases hkey : u.1 = m
      · -- the key does not come again
        subst hkey
        have hrest : Assoc.find? u.1 us = none :=
          Assoc.find?_eq_none _ fun e he heq =>
            hother e he (Monomial.linearOn_overVars.eq_of_eq heq).symm
        rw [hrest, Assoc.find?_cons_of_eq _ _ (Monomial.linearOn_overVars.compare_self hu)]
        exact Monomial.linearOn_overVars.find?_alter_self hp.overVars hp.sorted hu _
      · have hsame : Assoc.find? m (p.addTerm u.1 u.2).terms = Assoc.find? m p.terms :=
          Monomial.linearOn_overVars.find?_alter_of_ne hkey _
        have hskip : Assoc.find? m (u :: us) = Assoc.find? m us := by
          rw [← List.singleton_append]
          refine Assoc.find?_append_of_ne m us fun e he heq => hkey ?_
          rw [← List.mem_singleton.mp he]
          exact Monomial.linearOn_overVars.eq_of_eq heq
        rw [hsame, hskip]

/-- The coefficients of a difference. -/
theorem Ordered.find?_sub (hp : p.Ordered) (hq : q.Ordered) (hm : m.OverVars) :
    Assoc.find? m (p.sub q).terms = (Assoc.find? m q.terms).elim (Assoc.find? m p.terms)
      fun c => coefficientWith (Assoc.find? m p.terms) (-c) := by
  have hopposite : Assoc.find? m q.neg.terms = (Assoc.find? m q.terms).map (- ·) :=
    Assoc.find?_map m _ q.terms
  rw [Poly.sub, Poly.add, find?_foldl_addTerm hp hm hq.neg.overVars
    (Monomial.linearOn_overVars.ne_of_sorted hq.neg.overVars hq.neg.sorted), hopposite]
  cases Assoc.find? m q.terms <;> rfl

/-- A coefficient that cancels is the same in both polynomials, and cancels the
other way round. -/
theorem Ordered.find?_sub_eq_none (hp : p.Ordered) (hq : q.Ordered) (hm : m.OverVars)
    (h : Assoc.find? m (p.sub q).terms = none) :
    Assoc.find? m p.terms = Assoc.find? m q.terms ∧ Assoc.find? m (q.sub p).terms = none := by
  rw [hp.find?_sub hq hm] at h
  rw [hq.find?_sub hp hm]
  cases hx : Assoc.find? m p.terms with
  | none =>
      cases hy : Assoc.find? m q.terms with
      | none => exact ⟨rfl, rfl⟩
      | some y =>
          rw [hx, hy] at h
          have hmem := (Monomial.linearOn_overVars.find?_eq_some_iff hq.overVars hq.sorted hm).mp hy
          -- a term of the second polynomial alone does not vanish
          have hzero : (0 + -y).isZero = true := by
            by_contra hzero
            simp [coefficientWith, hzero] at h
          rw [← Scalar.eq_of_isZero_add_neg hzero] at hmem
          cases hq.ne_zero _ hmem
  | some x =>
      cases hy : Assoc.find? m q.terms with
      | none =>
          rw [hx, hy] at h
          cases h
      | some y =>
          rw [hx, hy] at h
          -- two terms that cancel have the same coefficient, so they cancel the
          -- other way round, too
          have hzero : (x + -y).isZero = true := by
            by_contra hzero
            simp [coefficientWith, hzero] at h
          obtain rfl := Scalar.eq_of_isZero_add_neg hzero
          exact ⟨rfl, h⟩

/-- Polynomials with an empty difference are the same. -/
theorem Ordered.eq_of_sub (hp : p.Ordered) (hq : q.Ordered) (h : (p.sub q).terms = []) : p = q := by
  have hterms : p.terms = q.terms := by
    refine Monomial.linearOn_overVars.ext hp.overVars hq.overVars hp.sorted hq.sorted fun m hm => ?_
    refine (hp.find?_sub_eq_none hq hm ?_).1
    rw [h]
    rfl
  obtain ⟨ts⟩ := p
  obtain ⟨us⟩ := q
  exact congrArg ofTerms hterms

theorem Ordered.sub (hp : p.Ordered) (hq : q.Ordered) : (p.sub q).Ordered :=
  hp.add hq.neg

/-- A polynomial is a constant if nothing but the empty product has a
coefficient. -/
theorem Ordered.isSome_asConstant?_iff (hp : p.Ordered) : p.asConstant?.isSome = true ↔
    ∀ m : Monomial, m.OverVars → m ≠ .one → Assoc.find? m p.terms = none := by
  constructor
  · intro h m _ hne
    obtain ⟨c, hc⟩ := Option.isSome_iff_exists.mp h
    rcases terms_of_asConstant? hc with ⟨hterms, -⟩ | hterms
    · rw [hterms]
      rfl
    · rw [hterms]
      refine Assoc.find?_eq_none m fun t ht heq => hne ?_
      rw [← Monomial.linearOn_overVars.eq_of_eq heq, List.mem_singleton.mp ht]
  · intro h
    have hone : ∀ t ∈ p.terms, t.1 = .one := by
      intro t ht
      by_contra hne
      have hnone := h t.1 (hp.overVars t ht) hne
      have hfind := (Monomial.linearOn_overVars.find?_eq_some_iff hp.overVars hp.sorted
        (hp.overVars t ht)).mpr ht
      rw [hnone] at hfind
      cases hfind
    have hdistinct := Monomial.linearOn_overVars.ne_of_sorted hp.overVars hp.sorted
    -- a sorted list with no other monomial than one has a single entry at most
    obtain ⟨ts⟩ := p
    match ts with
    | [] => rfl
    | [(m, c)] =>
        obtain rfl : m = .one := hone _ List.mem_cons_self
        rfl
    | t :: u :: us =>
        refine absurd ?_ ((List.pairwise_cons.mp hdistinct).1 u List.mem_cons_self)
        rw [hone t List.mem_cons_self, hone u (List.mem_cons_of_mem t List.mem_cons_self)]

/-- One difference is a constant where the other one is. -/
theorem Ordered.isSome_asConstant?_sub (hp : p.Ordered) (hq : q.Ordered)
    (h : (p.sub q).asConstant?.isSome = true) : (q.sub p).asConstant?.isSome = true := by
  rw [(hp.sub hq).isSome_asConstant?_iff] at h
  rw [(hq.sub hp).isSome_asConstant?_iff]
  exact fun m hm hne => (hp.find?_sub_eq_none hq hm (h m hm hne)).2

/-- An exact constant difference is the difference of the values. -/
theorem value_sub_of_asConstant? (I : Reading) {x : ℚ}
    (h : (p.sub q).asConstant? = some (.exact x)) : x = p.value I - q.value I := by
  have hexact : (p.sub q).Exact := (exact_iff_of_asConstant? h).mpr rfl
  have hvalue := Denotes.sub (p := p) (q := q) (I := I) (fun _ => rfl) (fun _ => rfl) hexact
  rw [← hvalue, value_of_asConstant? I h, I.scalar_exact]

/-! ## Extrema -/

section Extremum

variable (takeSmaller : Bool) (wrap : Poly → Poly → Atom)

theorem eq_of_beq_true (h : (p == q) = true) : p = q :=
  eq_of_cmp p q (LawfulBEq.eq_of_beq h)

/-- Which operand an exact constant difference picks. -/
theorem extremum_of_exact {x : ℚ} (h : (p.sub q).asConstant? = some (.exact x)) :
    extremum takeSmaller wrap p q = if decide (x < 0) = takeSmaller then p else q := by
  have hnegative : (Scalar.exact x).isNegative = decide (x < 0) := by
    simp [Scalar.isNegative, Scalar.numer]
  rw [extremum]
  split
  · next heq => rw [eq_of_beq_true heq, ite_self]
  · simp [h, hnegative]

/-- Two polynomials without a constant difference become an atom, the lesser
first. -/
theorem extremum_of_none (hne : ¬ (p == q) = true) (h : (p.sub q).asConstant? = none) :
    extremum takeSmaller wrap p q =
      if p.cmp q = .gt then ofAtom (wrap q p) else ofAtom (wrap p q) := by
  rw [extremum, if_neg hne, h]
  simp

/-- An extremum of two polynomials over variables does not depend on their
order, if none of their differences is the mark of an overflow. -/
theorem Ordered.extremum_comm (hp : p.Ordered) (hq : q.Ordered)
    (hpq : (p.sub q).asConstant? ≠ some .overflow) (hqp : (q.sub p).asConstant? ≠ some .overflow) :
    extremum takeSmaller wrap p q = extremum takeSmaller wrap q p := by
  by_cases heq : p = q
  · rw [heq]
  · cases h : (p.sub q).asConstant? with
    | none =>
        -- one difference is constant where the other one is
        have hback : (q.sub p).asConstant? = none := by
          by_contra hsome
          have hforth := hq.isSome_asConstant?_sub hp (Option.isSome_iff_ne_none.mpr hsome)
          rw [h] at hforth
          cases hforth
        rw [extremum_of_none _ _ (fun hbeq => heq (eq_of_beq_true hbeq)) h,
          extremum_of_none _ _ (fun hbeq => heq (eq_of_beq_true hbeq).symm) hback,
          cmp_swap hp.overVars hq.overVars]
        cases hcmp : p.cmp q with
        | lt => rfl
        | eq => exact absurd (eq_of_cmp p q hcmp) heq
        | gt => rfl
    | some c =>
        obtain ⟨d, hd⟩ := Option.isSome_iff_exists.mp
          (hp.isSome_asConstant?_sub hq (by rw [h]; rfl))
        cases c with
        | overflow => exact absurd h hpq
        | exact x =>
            cases d with
            | overflow => exact absurd hd hqp
            | exact y =>
                -- both differences are exact, and so opposite; neither is zero,
                -- since the polynomials differ
                have hopposite : y = -x := by
                  rw [value_sub_of_asConstant? (Formula.sizedReading 0) h,
                    value_sub_of_asConstant? (Formula.sizedReading 0) hd, neg_sub]
                have hx : x ≠ 0 := by
                  rintro rfl
                  rcases terms_of_asConstant? h with ⟨hterms, -⟩ | hterms
                  · exact heq (hp.eq_of_sub hq hterms)
                  · have hzero := (hp.sub hq).ne_zero (.one, .exact 0) (by rw [hterms]; simp)
                    cases hzero
                rw [extremum_of_exact _ _ h, extremum_of_exact _ _ hd, hopposite]
                rcases hx.lt_or_gt with hneg | hpos
                · have hback : ¬ -x < 0 := by linarith
                  cases takeSmaller <;> simp [hneg, hback]
                · have hforth : ¬ x < 0 := by linarith
                  cases takeSmaller <;> simp [hpos, hforth]

/-- The value of an extremum whose difference is not the mark of an overflow. -/
theorem value_extremum {I : Reading} (hpq : (p.sub q).asConstant? ≠ some .overflow)
    (hwrap : ∀ p q, (wrap p q).value I =
      if takeSmaller then Min.min (p.value I) (q.value I) else Max.max (p.value I) (q.value I)) :
    (extremum takeSmaller wrap p q).value I =
      if takeSmaller then Min.min (p.value I) (q.value I) else Max.max (p.value I) (q.value I) := by
  have hatom : ∀ a : Atom, (ofAtom a).value I = a.value I := by
    intro a
    rw [ofAtom, value_term, I.scalar_one, one_mul, Monomial.value_of, zpow_one]
  -- equal polynomials; an atom for the two; one of the two, by the sign of the
  -- difference
  by_cases hbeq : (p == q) = true
  · rw [extremum, if_pos hbeq, ← eq_of_beq_true hbeq, min_self, max_self, ite_self]
  · cases h : (p.sub q).asConstant? with
    | none =>
        rw [extremum_of_none _ _ hbeq h]
        split
        · rw [hatom, hwrap, min_comm, max_comm]
        · rw [hatom, hwrap]
    | some c =>
        cases c with
        | overflow => exact absurd h hpq
        | exact x =>
            have hdiff := value_sub_of_asConstant? I h
            rw [extremum_of_exact _ _ h]
            rcases lt_or_ge x 0 with hneg | hnonneg
            · have hle : p.value I ≤ q.value I := by linarith
              cases takeSmaller <;> simp [hneg, hle]
            · have hle : q.value I ≤ p.value I := by linarith
              have hnot : ¬ x < 0 := not_lt.mpr hnonneg
              cases takeSmaller <;> simp [hnot, hle]

end Extremum

/-- **Extrema pick by value.**  If none of the two differences of polynomials
over variables is the mark of an overflow, then their minimum and their maximum
have the minimum and the maximum of their values, be it that one of them is
picked or that an atom is made, and neither depends on their order. -/
theorem extremum_picks (hp : p.Ordered) (hq : q.Ordered)
    (hpq : (p.sub q).asConstant? ≠ some .overflow) (hqp : (q.sub p).asConstant? ≠ some .overflow) :
    (∀ I : Reading, (p.minWith q).value I = Min.min (p.value I) (q.value I) ∧
        (p.maxWith q).value I = Max.max (p.value I) (q.value I)) ∧
      p.minWith q = q.minWith p ∧ p.maxWith q = q.maxWith p :=
  ⟨fun _ => ⟨value_extremum true .min hpq fun _ _ => rfl,
      value_extremum false .max hpq fun _ _ => rfl⟩,
    hp.extremum_comm true .min hq hpq hqp, hp.extremum_comm false .max hq hpq hqp⟩

/-- Of `n` and `n + 2` at size five, the minimum is five and the maximum seven,
in either order. -/
theorem extremum_picks_shifted :
    ((var "n").minWith ((var "n").add (constant 2))).value (Formula.sizedReading 5) = 5 ∧
      ((var "n").maxWith ((var "n").add (constant 2))).value (Formula.sizedReading 5) = 7 ∧
      (var "n").minWith ((var "n").add (constant 2)) =
        ((var "n").add (constant 2)).minWith (var "n") := by
  have hp : (var "n").Ordered := ordered_var "n"
  have hq : ((var "n").add (constant 2)).Ordered := hp.add (ordered_constant 2)
  have hpq : ((var "n").sub ((var "n").add (constant 2))).asConstant? ≠ some .overflow := by
    decide +kernel
  have hqp : (((var "n").add (constant 2)).sub (var "n")).asConstant? ≠ some .overflow := by
    decide +kernel
  obtain ⟨hvalue, hmin, -⟩ := extremum_picks hp hq hpq hqp
  obtain ⟨hleast, hgreatest⟩ := hvalue (Formula.sizedReading 5)
  have hn : (var "n").value (Formula.sizedReading 5) = 5 := by decide +kernel
  have hn2 : ((var "n").add (constant 2)).value (Formula.sizedReading 5) = 7 := by decide +kernel
  rw [hn, hn2] at hleast hgreatest
  exact ⟨hleast.trans (by norm_num), hgreatest.trans (by norm_num), hmin⟩

/-- The difference of the least number and two does not fit, so that two is
called their minimum and the least number their maximum.  In the other order the
choice is right. -/
theorem extremum_picks_overflow :
    (constant (.ofInt (-(2 ^ 127 - 1)))).Ordered ∧ (constant (.ofInt 2)).Ordered ∧
      ((constant (.ofInt (-(2 ^ 127 - 1)))).minWith (constant (.ofInt 2))).asConstant? =
        some (.ofInt 2) ∧
      ((constant (.ofInt 2)).minWith (constant (.ofInt (-(2 ^ 127 - 1))))).asConstant? =
        some (.ofInt (-(2 ^ 127 - 1))) ∧
      ((constant (.ofInt (-(2 ^ 127 - 1)))).minWith (constant (.ofInt 2))).value
          (Formula.sizedReading 0) ≠
        Min.min ((constant (.ofInt (-(2 ^ 127 - 1)))).value (Formula.sizedReading 0))
          ((constant (.ofInt 2)).value (Formula.sizedReading 0)) ∧
      ((constant (.ofInt (-(2 ^ 127 - 1)))).maxWith (constant (.ofInt 2))).asConstant? =
        some (.ofInt (-(2 ^ 127 - 1))) := by
  refine ⟨ordered_constant _, ordered_constant _, ?_⟩
  decide +kernel

end Poly

end CostAnalysis
