import CostAnalysis.Proofs.Poly.Text
import Mathlib.Tactic.Ring

/-!
# Factored texts are read back

The factored text `c*m*(rest)/d` takes the content `c/d` out of the coefficients
and the common variables `m` out of the monomials.  The content is found by
greatest common divisors of fractions, and where the common denominator of two
of them does not fit, the search starts anew with one.  So either every
coefficient is an integral multiple of the content, or its numerator is one
(`Scalar.IsContent`).

Read from the left, the text is the product `c*m*(rest)`, which is `d` times the
polynomial, divided by `d`.  That multiple is the reason for the one hypothesis
beside elementary atoms: its coefficients fit (`Poly.FitsOverContent`).  They do
if all coefficients have a common denominator for which their numerators fit
(`Poly.Elementary.fitsOverContent`).

`Poly.IsFactoring` says that a number, a monomial and a rest make up a
polynomial.  The three that are taken out do so
(`Poly.Elementary.exists_factoring`), and the text of any such three is read
back (`Poly.IsFactoring.exists_formula`).
-/

namespace CostAnalysis

open Formula

/-! ## The common factor of the coefficients

Of the greatest common divisor of fractions no more is shown than printing
needs: a coefficient over the content is an integer, or the content has the
numerator one (`Scalar.IsContent`).  The second case is what is left of a
content whose denominator did not fit. -/

namespace Scalar

/-- A fraction is a multiple of another one whose numerator divides its own and
whose denominator is divided by its own. -/
theorem exists_eq_mul_div {x : ℚ} {g : ℤ} {l : ℕ} (hg : g ∣ x.num) (hl : x.den ∣ l) (hl0 : l ≠ 0) :
    ∃ k : ℤ, x = k * (g / l) := by
  obtain ⟨a, ha⟩ := hg
  obtain ⟨b, hb⟩ := hl
  have hden : (x.den : ℚ) ≠ 0 := Nat.cast_ne_zero.mpr x.den_nz
  have hb0 : (b : ℚ) ≠ 0 := Nat.cast_ne_zero.mpr (right_ne_zero_of_mul (hb ▸ hl0))
  refine ⟨a * b, ?_⟩
  calc x = x.num / x.den := (Rat.num_div_den x).symm
    _ = (g * a : ℤ) / x.den := by rw [← ha]
    _ = (a * b : ℤ) * (g / l) := by
        rw [hb]
        push_cast
        field_simp

/-- The numerator of a divisor divides the numerator. -/
theorem num_dvd_of_eq_mul {x r : ℚ} {k : ℤ} (h : x = k * r) : r.num ∣ x.num := by
  have hcross : x.num * r.den = k * r.num * x.den := by
    have hx : x * x.den = x.num := Rat.mul_den_eq_num x
    have hr : r * r.den = r.num := Rat.mul_den_eq_num r
    have hcast : (x.num * r.den : ℚ) = k * r.num * x.den := by
      rw [← hx, ← hr, h]
      ring
    exact_mod_cast hcast
  have hdvd : r.num ∣ x.num * r.den := ⟨k * x.den, by rw [hcross]; ring⟩
  exact Int.dvd_of_dvd_mul_left_of_gcd_one hdvd r.reduced

/-- **The greatest common divisor of two fractions** divides both, or it is one
because the common denominator of the two does not fit. -/
theorem exists_gcd {x y : ℚ} (hx0 : x ≠ 0) (hx : (exact x).Fits) :
    ∃ r, (exact x).gcd (exact y) = exact r ∧ r ≠ 0 ∧ (exact r).Fits ∧
      r.den ∣ Nat.lcm x.den y.den ∧ (r = 1 ∨ (∃ k : ℤ, x = k * r) ∧ ∃ k : ℤ, y = k * r) := by
  obtain ⟨q, hq, hnumfits, -⟩ := hx
  obtain rfl := exact.inj hq
  obtain ⟨l, hl⟩ : ∃ l, l = Nat.lcm x.den y.den := ⟨_, rfl⟩
  obtain ⟨g, hg⟩ : ∃ g : ℤ, g = Int.gcd x.num y.num := ⟨_, rfl⟩
  have hgx : g ∣ x.num := hg ▸ Int.gcd_dvd_left x.num y.num
  have hgy : g ∣ y.num := hg ▸ Int.gcd_dvd_right x.num y.num
  have hnum : x.num ≠ 0 := Rat.num_ne_zero.mpr hx0
  have hg0 : g ≠ 0 := ne_zero_of_dvd_ne_zero hnum hgx
  have hgfits : fits g = true := fits_of_dvd hgx hnum hnumfits
  have hl0 : l ≠ 0 := hl ▸ Nat.lcm_ne_zero x.den_nz y.den_nz
  -- the greatest common divisor of the numerators always fits, so that only the
  -- common denominator can be too large
  have hvalue : (exact x).gcd (exact y) =
      if fits l then (ofFraction? g l).getD 1 else 1 := by
    have hword : gcdWord x.num y.num = g := by
      simp only [gcdWord, Int.ofNat_eq_natCast, ← hg, hgfits, if_true]
    rw [← hword, hl]
    rfl
  rw [← hl, hvalue]
  by_cases hlfits : fits l = true
  · have hden : (((g / l : ℚ).den : ℕ) : ℤ) ∣ (l : ℤ) := by
      have h := Rat.den_dvd g l
      rwa [Rat.divInt_eq_div, Int.cast_natCast] at h
    have hfits := fits_div (Int.natCast_ne_zero.mpr hl0) hgfits hlfits
    rw [Int.cast_natCast] at hfits
    rw [if_pos hlfits, ofFraction?_eq (Int.natCast_ne_zero.mpr hl0) hgfits hlfits, Int.cast_natCast]
    refine ⟨g / l, rfl, div_ne_zero (Int.cast_ne_zero.mpr hg0) (Nat.cast_ne_zero.mpr hl0), hfits,
      Int.natCast_dvd_natCast.mp hden, Or.inr ⟨?_, ?_⟩⟩
    · exact exists_eq_mul_div hgx (hl ▸ Nat.dvd_lcm_left _ _) hl0
    · exact exists_eq_mul_div hgy (hl ▸ Nat.dvd_lcm_right _ _) hl0
  -- the common denominator does not fit: the search starts anew with one
  · rw [if_neg hlfits]
    exact ⟨1, rfl, one_ne_zero, one_fits, one_dvd l, Or.inl rfl⟩

/-- What a greatest common divisor of coefficients is good for: the quotients
are integers, or at least no numerator is left in it. -/
structure IsContent (r : ℚ) (cs : List Scalar) : Prop where
  ne_zero : r ≠ 0
  fits : (exact r).Fits
  divides : r.num.natAbs = 1 ∨ ∀ c ∈ cs, ∃ k : ℤ, c = exact (k * r)
  den_dvd : ∀ d, (∀ c ∈ cs, c.denom ∣ d) → r.den ∣ d

namespace IsContent

variable {r : ℚ} {cs : List Scalar}

/-- A single coefficient is its own content. -/
theorem singleton {x : ℚ} (hx0 : x ≠ 0) (hx : (exact x).Fits) : IsContent x [exact x] where
  ne_zero := hx0
  fits := hx
  divides := Or.inr (List.forall_mem_singleton.mpr ⟨1, by rw [Int.cast_one, Rat.one_mul]⟩)
  den_dvd _ h := h _ (List.mem_singleton_self _)

/-- One more coefficient. -/
theorem gcd (h : IsContent r cs) (y : ℚ) :
    ∃ r', (exact r).gcd (exact y) = exact r' ∧ IsContent r' (exact y :: cs) := by
  obtain ⟨r', hvalue, hne, hfits, hden, hdivides⟩ := exists_gcd (y := y) h.ne_zero h.fits
  refine ⟨r', hvalue, hne, hfits, ?_, fun d hd => hden.trans ?_⟩
  · rcases hdivides with rfl | ⟨⟨k, hk⟩, hy⟩
    · exact Or.inl rfl
    · rcases h.divides with hunit | hall
      · exact Or.inl (Nat.dvd_one.mp (hunit ▸ Int.natAbs_dvd_natAbs.mpr (num_dvd_of_eq_mul hk)))
      · refine Or.inr (List.forall_mem_cons.mpr ⟨hy.imp fun _ hj => by rw [hj], fun c hc => ?_⟩)
        obtain ⟨i, hi⟩ := hall c hc
        exact ⟨i * k, by rw [hi, hk, Int.cast_mul, mul_assoc]⟩
  · obtain ⟨hy, hcs⟩ := List.forall_mem_cons.mp hd
    exact Nat.lcm_dvd (h.den_dvd d hcs) hy

/-- The content may be taken with the other sign. -/
theorem neg (h : IsContent r cs) : -exact r = exact (-r) ∧ IsContent (-r) cs := by
  have hfits := h.fits.neg
  obtain ⟨q, hq, hnum, -⟩ := h.fits
  obtain rfl := exact.inj hq
  have hvalue : -exact r = exact (-r) := if_pos hnum
  refine ⟨hvalue, neg_ne_zero.mpr h.ne_zero, hvalue ▸ hfits, ?_, fun d hd => ?_⟩
  · refine h.divides.imp (fun hunit => by simpa using hunit) fun hall c hc => ?_
    obtain ⟨k, hk⟩ := hall c hc
    exact ⟨-k, by rw [hk, Int.cast_neg, neg_mul_neg]⟩
  · simpa using h.den_dvd d hd

/-- Only which coefficients there are matters. -/
theorem congr {ds : List Scalar} (h : IsContent r cs) (hmem : ∀ c, c ∈ ds ↔ c ∈ cs) :
    IsContent r ds where
  ne_zero := h.ne_zero
  fits := h.fits
  divides := h.divides.imp id fun hall c hc => hall c ((hmem c).mp hc)
  den_dvd d hd := h.den_dvd d fun c hc => hd c ((hmem c).mpr hc)

/-- The quotient of a coefficient by the content fits if the multiple does.
Either it is integral and divides the numerator of the multiple, or the
numerator of the content is one and the quotient is the multiple itself, up to
the sign. -/
theorem fits_quotient (h : IsContent r cs) {x : ℚ} (hx : exact x ∈ cs)
    (hscaled : (exact (x * r.den)).Fits) : (exact (x * r⁻¹)).Fits := by
  have hback : x * r⁻¹ * r.num = x * r.den := by
    rw [← Rat.mul_den_eq_num r, ← mul_assoc, inv_mul_cancel_right₀ h.ne_zero]
  -- the numerator of the content is one, up to the sign, or it divides what
  -- fits
  rcases h.divides with hunit | hall
  · rcases Int.natAbs_eq_iff.mp hunit with hone | hone
    · rw [hone, Nat.cast_one, Int.cast_one, Rat.mul_one] at hback
      rwa [hback]
    · have hopposite : -(x * r⁻¹) = x * r.den := by
        rw [← hback, hone]
        push_cast
        ring
      obtain ⟨q, hq, hnum, hden⟩ := hscaled
      rw [← hopposite, exact.injEq] at hq
      subst hq
      exact ⟨x * r⁻¹, rfl, by simpa using fits_neg hnum, by simpa using hden⟩
  · obtain ⟨k, hk⟩ := hall _ hx
    have hquotient : x * r⁻¹ = k := by
      rw [exact.inj hk, mul_inv_cancel_right₀ h.ne_zero]
    rw [hquotient] at hback ⊢
    obtain ⟨q, hq, hnum, -⟩ := hscaled
    rw [← hback, exact.injEq] at hq
    subst hq
    have hproduct : ((k : ℚ) * r.num).num = k * r.num := by
      rw [← Int.cast_mul, Rat.num_intCast]
    rw [hproduct] at hnum
    by_cases hk0 : k = 0
    · rw [hk0]
      exact zero_fits
    · exact .ofInt (fits_of_dvd (dvd_mul_right _ _)
        (mul_ne_zero hk0 (Rat.num_ne_zero.mpr h.ne_zero)) hnum)

/-- **A coefficient is divided by the content** if its multiple by the
denominator fits.  The quotient times the numerator is that multiple again. -/
theorem exists_div (h : IsContent r cs) {c : Scalar} (hc : c ∈ cs)
    (hscaled : (c * ofNat r.den).Fits) (hfits : c.Fits) (hzero : c.isZero = false) :
    ∃ q, c.div? (exact r) = some q ∧ q.Fits ∧ q.isZero = false ∧
      ofInt r.num * q = c * ofNat r.den := by
  obtain ⟨x, rfl, -⟩ := hfits
  have hx0 : x ≠ 0 := by
    rintro rfl
    cases hzero
  -- the product that fits is the exact one
  have hvalue : exact x * ofNat r.den = exact (x * r.den) := by
    rcases mul_cases (exact x) (ofNat r.den) with hover | ⟨y, z, hy, hz, hvalue⟩
    · rw [hover] at hscaled
      cases hscaled.isOverflow
    · rw [hvalue, exact.inj hy, ← exact.inj hz]
      rfl
  rw [hvalue] at hscaled ⊢
  have hquotient := h.fits_quotient hc hscaled
  obtain ⟨r', hr', hnum, hden⟩ := h.fits
  obtain rfl := exact.inj hr'
  have hback : r.num * (x * r⁻¹) = x * r.den := by
    rw [← Rat.mul_den_eq_num r, mul_comm, ← mul_assoc, inv_mul_cancel_right₀ h.ne_zero]
  refine ⟨exact (x * r⁻¹), ?_, hquotient,
    isZero_exact_of_ne (mul_ne_zero hx0 (inv_ne_zero h.ne_zero)), ?_⟩
  · rw [div?, recip?_exact h.ne_zero hnum hden, Option.map_some, exact_mul_exact hquotient]
  · rw [ofInt_eq, exact_mul_exact (hback ▸ hscaled), hback]

end IsContent

end Scalar

namespace Poly

/-- **The content** of coefficients that fit and are not zero. -/
theorem exists_content (ts : List (Monomial × Scalar))
    (hts : ∀ t ∈ ts, t.2.Fits ∧ t.2.isZero = false) :
    ∃ r, content ts = .exact r ∧ Scalar.IsContent r (ts.map Prod.snd) := by
  have hfold : ∀ (rest : List (Monomial × Scalar)) (r : ℚ) (cs : List Scalar),
      Scalar.IsContent r cs → (∀ t ∈ rest, t.2.Fits) →
      ∃ r', rest.foldl (fun (acc : Scalar) t => acc.gcd t.2) (.exact r) = .exact r' ∧
        Scalar.IsContent r' ((rest.map Prod.snd).reverseAux cs) := by
    intro rest
    induction rest with
    | nil => exact fun r cs h _ => ⟨r, rfl, h⟩
    | cons t rest ih =>
        intro r cs h hrest
        obtain ⟨⟨y, hy, -⟩, hrest⟩ := List.forall_mem_cons.mp hrest
        obtain ⟨g, hg, hcontent⟩ := h.gcd y
        obtain ⟨r', hr', hall⟩ := ih g _ hcontent hrest
        refine ⟨r', ?_, ?_⟩
        · rw [List.foldl_cons, hy, hg, hr']
        · rw [List.map_cons, hy]
          exact hall
  cases ts with
  | nil => exact ⟨1, rfl, one_ne_zero, Scalar.one_fits, Or.inl rfl, fun d _ => one_dvd d⟩
  | cons t rest =>
      obtain ⟨⟨hfits, hzero⟩, hrest⟩ := List.forall_mem_cons.mp hts
      obtain ⟨x, hx, -⟩ := id hfits
      rw [hx] at hfits hzero
      have hx0 : x ≠ 0 := by
        rintro rfl
        cases hzero
      obtain ⟨r, hr, hcontent⟩ := hfold rest x _ (.singleton hx0 hfits) fun t ht => (hrest t ht).1
      have hvalue : content (t :: rest) = if t.2.isNegative then -.exact r else .exact r := by
        rw [content, hx, hr]
      have hcontent : Scalar.IsContent r ((t :: rest).map Prod.snd) :=
        hcontent.congr fun c => by simp [hx, or_comm]
      rw [hvalue]
      split
      · exact ⟨-r, hcontent.neg⟩
      · exact ⟨r, rfl, hcontent⟩

/-! ## The common factor of the monomials

A variable is taken out with the least power that it has in any term.  Negative
powers stay where they are, so that no term is multiplied by anything. -/

/-- The power of a variable that divides the terms if it divides one of them;
nothing if the variable does not occur in all of them. -/
def sharedFactor? (rest : List (Monomial × Scalar)) : Atom × ℤ → Option (Atom × ℤ)
  | (.var name, e) =>
      let shared := rest.foldl (fun least t =>
        let other := t.1.exponentOf (.var name)
        if other < least then other else least) e
      if 0 < shared then some (.var name, shared) else none
  | _ => none

/-- The shared power is of the same variable, is positive, and divides all the
terms. -/
theorem of_sharedFactor?_eq_some {rest : List (Monomial × Scalar)} {f g : Atom × ℤ}
    (h : sharedFactor? rest f = some g) :
    g.1 = f.1 ∧ 0 < g.2 ∧ g.2 ≤ f.2 ∧ ∀ t ∈ rest, g.2 ≤ t.1.exponentOf g.1 := by
  -- the least exponent is kept along the terms, and can only fall
  have hleast : ∀ (a : Atom) (rest : List (Monomial × Scalar)) (e : ℤ),
      let shared := rest.foldl (fun least t =>
        let other := t.1.exponentOf a
        if other < least then other else least) e
      shared ≤ e ∧ ∀ t ∈ rest, shared ≤ t.1.exponentOf a := by
    intro a rest
    induction rest with
    | nil => simp
    | cons t rest ih =>
        intro e
        obtain ⟨hle, hall⟩ := ih (if t.1.exponentOf a < e then t.1.exponentOf a else e)
        refine ⟨hle.trans (by split <;> omega), List.forall_mem_cons.mpr ⟨?_, hall⟩⟩
        exact hle.trans (by split <;> omega)
  match f with
  | (.var name, e) =>
      simp only [sharedFactor?, Option.ite_none_right_eq_some, Option.some.injEq] at h
      obtain ⟨hpos, rfl⟩ := h
      obtain ⟨hle, hall⟩ := hleast (.var name) rest e
      exact ⟨rfl, hpos, hle, hall⟩

/-- A product of variables that divides every term. -/
structure IsCommonFactor (common : Monomial) (ts : List (Monomial × Scalar)) : Prop where
  elementary : common.Elementary
  pos : ∀ f ∈ common.factors, 0 < f.2
  le : ∀ f ∈ common.factors, ∀ t ∈ ts, f.2 ≤ t.1.exponentOf f.1

/-- What is taken out are the shared powers of the factors of the first term, in
their order. -/
theorem commonVars_eq {t : Monomial × Scalar} {rest : List (Monomial × Scalar)}
    (h : (Monomial.ofFactors (t.1.factors.filterMap (sharedFactor? rest))).Elementary) :
    commonVars (t :: rest) = .ofFactors (t.1.factors.filterMap (sharedFactor? rest)) := by
  rw [← h.one_mul]
  show _ = (t.1.factors.filterMap (sharedFactor? rest)).foldl _ _
  rw [List.foldl_filterMap]
  refine List.foldl_ext _ _ _ fun acc f hf => ?_
  match f with
  | (.var name, e) =>
      simp only [sharedFactor?]
      split
      · next hpos => exact Monomial.mul_of acc _ hpos.ne'
      · rfl
  | (.log _, _) | (.min _ _, _) | (.max _ _, _) | (.exp _ _, _) | (.power _ _, _)
  | (.unresolved _, _) | (.unknown _, _) => rfl

/-- **It divides every term.**  The factors of the first term are gone through,
so that nothing has to be said about an order among the terms. -/
theorem isCommonFactor_commonVars {ts : List (Monomial × Scalar)}
    (hts : ∀ t ∈ ts, t.1.Elementary) : IsCommonFactor (commonVars ts) ts := by
  cases ts with
  | nil => exact ⟨Monomial.elementary_one, nofun, nofun⟩
  | cons t rest =>
      have ht := hts t List.mem_cons_self
      have hmem : ∀ g ∈ t.1.factors.filterMap (sharedFactor? rest), ∃ f ∈ t.1.factors,
          g.1 = f.1 ∧ 0 < g.2 ∧ g.2 ≤ f.2 ∧ ∀ u ∈ rest, g.2 ≤ u.1.exponentOf g.1 := by
        intro g hg
        obtain ⟨f, hf, hshared⟩ := List.mem_filterMap.mp hg
        exact ⟨f, hf, of_sharedFactor?_eq_some hshared⟩
      -- the shared factors stand in the order of those of the first term, with
      -- smaller exponents
      have helementary :
          (Monomial.ofFactors (t.1.factors.filterMap (sharedFactor? rest))).Elementary := by
        refine ⟨fun g hg => ?_, fun g hg => ?_, ?_⟩
        · obtain ⟨f, hf, hatom, -⟩ := hmem g hg
          rw [hatom]
          exact ht.overElementary f hf
        · obtain ⟨f, hf, -, hpos, hle, -⟩ := hmem g hg
          have hbound := (ht.isExponent f hf).2
          exact ⟨by omega, by omega⟩
        · refine ht.sorted.filterMap _ fun f f' hlt g hg g' hg' => ?_
          rw [(of_sharedFactor?_eq_some hg).1, (of_sharedFactor?_eq_some hg').1]
          exact hlt
      rw [commonVars_eq helementary]
      refine ⟨helementary, fun g hg => ?_, fun g hg => ?_⟩
      · obtain ⟨f, hf, -, hpos, -⟩ := hmem g hg
        exact hpos
      · obtain ⟨f, hf, hatom, -, hle, hall⟩ := hmem g hg
        refine List.forall_mem_cons.mpr ⟨?_, hall⟩
        rw [hatom, ht.exponentOf_of_mem hf]
        exact hle

section Cancel

variable {common : Monomial} {ts : List (Monomial × Scalar)} (hcommon : IsCommonFactor common ts)
include hcommon

/-- No exponent of what is taken out exceeds that of the term. -/
theorem IsCommonFactor.exponentOf_le {t : Monomial × Scalar} (ht : t ∈ ts) {a : Atom}
    (ha : a.IsElementary) :
    common.exponentOf a = 0 ∨
      0 < common.exponentOf a ∧ common.exponentOf a ≤ t.1.exponentOf a := by
  refine (hcommon.elementary.exponentOf_cases ha).imp id fun hmem => ?_
  exact ⟨hcommon.pos _ hmem, hcommon.le _ hmem t ht⟩

/-- **A common factor is divided out of a term**, which leaves none but atoms of
the term, and multiplied back. -/
theorem IsCommonFactor.cancel {t : Monomial × Scalar} (ht : t ∈ ts) (hm : t.1.Elementary) :
    (t.1.mul common.inverse).Elementary ∧ common.mul (t.1.mul common.inverse) = t.1 ∧
      ∀ f ∈ (t.1.mul common.inverse).factors, ∃ g ∈ t.1.factors, g.1 = f.1 := by
  obtain ⟨hquotient, hexponents⟩ := hm.mul hcommon.elementary.inverse fun a ha => by
    have hle := hcommon.exponentOf_le ht ha
    have hbound := hm.natAbs_exponentOf_lt ha
    rw [hcommon.elementary.exponentOf_inverse]
    omega
  -- exponents are subtracted and added back, and none of them is clamped on the
  -- way
  have hsum : ∀ a, a.IsElementary → common.exponentOf a +
      (t.1.mul common.inverse).exponentOf a = t.1.exponentOf a := by
    intro a ha
    rw [hexponents a ha, hcommon.elementary.exponentOf_inverse]
    omega
  obtain ⟨hproduct, hproductExponents⟩ := hcommon.elementary.mul hquotient fun a ha => by
    rw [hsum a ha]
    exact hm.natAbs_exponentOf_lt ha
  refine ⟨hquotient, hproduct.ext hm fun a ha => (hproductExponents a ha).trans (hsum a ha),
    fun f hf => ?_⟩
  -- a factor that is left has an exponent other than zero, so it was one of the
  -- term
  have ha := hquotient.overElementary f hf
  refine (hm.exponentOf_cases ha).elim (fun hzero => ?_) fun hmem => ⟨_, hmem, rfl⟩
  have hle := hcommon.exponentOf_le ht ha
  have hsub := hsum f.1 ha
  rw [hquotient.exponentOf_of_mem hf] at hsub
  have hne := (hquotient.isExponent f hf).1
  omega

/-- The atoms of a common factor are atoms of every term. -/
theorem IsCommonFactor.exists_mem {t : Monomial × Scalar} (ht : t ∈ ts) (hm : t.1.Elementary)
    {f : Atom × ℤ} (hf : f ∈ common.factors) : ∃ g ∈ t.1.factors, g.1 = f.1 := by
  refine (hm.exponentOf_cases (hcommon.elementary.overElementary f hf)).elim (fun hzero => ?_)
    fun hmem => ⟨_, hmem, rfl⟩
  have hle := hcommon.le f hf t ht
  have hpos := hcommon.pos f hf
  omega

/-- Terms that differ still differ behind what is taken out, so that none are
merged in the rest. -/
theorem IsCommonFactor.injective {s t : Monomial × Scalar} (hs : s ∈ ts) (ht : t ∈ ts)
    (hs' : s.1.Elementary) (ht' : t.1.Elementary)
    (heq : s.1.mul common.inverse = t.1.mul common.inverse) : s.1 = t.1 := by
  rw [← (hcommon.cancel hs hs').2.1, heq, (hcommon.cancel ht ht').2.1]

end Cancel

/-! ## The rest

What is left of a polynomial when content and common monomial are taken out is a
polynomial again, with the same number of terms: monomials that differ do so
after a common factor is cancelled.  A negative leading term passes its sign on
to the content, which turns the sign of all coefficients around. -/

/-- The atom is one of those that the polynomial is made of. -/
def HasAtom (p : Poly) (a : Atom) : Prop :=
  ∃ t ∈ p.terms, ∃ f ∈ t.1.factors, f.1 = a

/-- The multiple of the polynomial by the denominator of its content fits. -/
def FitsOverContent (p : Poly) : Prop :=
  ∀ t ∈ p.terms, (t.2 * .ofNat (content p.sortedTerms).denom).Fits

/-- The coefficients are fractions over one denominator for which all the
numerators fit. -/
def HasCommonDenominator (p : Poly) : Prop :=
  ∃ d : ℕ, d ≠ 0 ∧ Scalar.fits d = true ∧
    ∀ t ∈ p.terms, ∃ z : ℤ, t.2 = .exact (z / d) ∧ Scalar.fits z = true

/-- The polynomial is the product of a number, a monomial and the rest. -/
structure IsFactoring (p : Poly) (r : ℚ) (common : Monomial) (rest : Poly) : Prop where
  ne_zero : r ≠ 0
  fits : (Scalar.exact r).Fits
  elementary_common : common.Elementary
  pos : ∀ f ∈ common.factors, 0 < f.2
  elementary_rest : rest.Elementary
  length_eq : rest.terms.length = p.terms.length
  hasAtom_common : ∀ f ∈ common.factors, p.HasAtom f.1
  hasAtom_rest : ∀ a, rest.HasAtom a → p.HasAtom a
  fits_scale : ∀ t ∈ p.terms, (t.2 * .ofNat r.den).Fits
  mul_eq : (term (.ofInt r.num) common).mul rest = p.scale (.ofNat r.den)

variable {p : Poly}

/-- The content of an elementary polynomial is a number, and one in the sense
above. -/
theorem Elementary.exists_content (hp : p.Elementary) :
    ∃ r : ℚ, content p.sortedTerms = .exact r ∧ Scalar.IsContent r (p.sortedTerms.map Prod.snd) :=
  Poly.exists_content p.sortedTerms fun t ht =>
    have ht := p.sortedTerms_perm.mem_iff.mp ht
    ⟨hp.fits t ht, hp.ne_zero t ht⟩

/-- The denominator of the content divides every common denominator. -/
theorem Elementary.fitsOverContent (hp : p.Elementary) (h : p.HasCommonDenominator) :
    p.FitsOverContent := by
  obtain ⟨d, hd, hfits, hterms⟩ := h
  obtain ⟨r, hvalue, hcontent⟩ := hp.exists_content
  -- the denominator of the content divides the common one, with the quotient
  -- `b`
  obtain ⟨b, hb⟩ : r.den ∣ d := hcontent.den_dvd d fun c hc => by
    obtain ⟨t, ht, rfl⟩ := List.mem_map.mp hc
    obtain ⟨z, hz, -⟩ := hterms t (p.sortedTerms_perm.mem_iff.mp ht)
    rw [hz]
    have hdvd := Rat.den_dvd z d
    rw [Rat.divInt_eq_div, Int.cast_natCast] at hdvd
    exact Int.natCast_dvd_natCast.mp hdvd
  have hd' : (d : ℚ) ≠ 0 := Nat.cast_ne_zero.mpr hd
  have hb0 : b ≠ 0 := right_ne_zero_of_mul (hb ▸ hd)
  have hbfits : Scalar.fits b = true := Scalar.fits_of_dvd
    (Int.natCast_dvd_natCast.mpr (hb ▸ dvd_mul_left b r.den)) (Int.natCast_ne_zero.mpr hd) hfits
  intro t ht
  obtain ⟨z, hz, hzfits⟩ := hterms t ht
  -- so the multiple is a fraction over `b`, which fits as `b` divides what fits
  have hscaled : (z / d : ℚ) * r.den = z / b := by
    have hb' : (b : ℚ) ≠ 0 := Nat.cast_ne_zero.mpr hb0
    have hr' : (r.den : ℚ) ≠ 0 := Nat.cast_ne_zero.mpr r.den_nz
    rw [hb]
    push_cast
    field_simp
  have hquotient := Scalar.fits_div (Int.natCast_ne_zero.mpr hb0) hzfits hbfits
  rw [Int.cast_natCast, ← hscaled] at hquotient
  rw [hvalue, hz]
  show (Scalar.exact (z / d) * .exact r.den).Fits
  rwa [Scalar.exact_mul_exact hquotient]

/-- Dividing out a monomial with positive exponents, factor by factor. -/
theorem foldl_mul_of_neg {common : Monomial} (hcommon : common.Elementary) (m : Monomial) :
    common.factors.foldl (fun acc f => acc.mul (.of f.1 (-f.2))) m = m.mul common.inverse := by
  rw [hcommon.inverse_eq]
  show _ = (common.factors.map _).foldl _ m
  rw [List.foldl_map]
  refine List.foldl_ext _ _ _ fun acc f hf => ?_
  exact Monomial.mul_of acc f.1 (neg_ne_zero.mpr (hcommon.isExponent f hf).1)

/-- The terms are divided one by one. -/
theorem foldlM_div (content : Scalar) (quotient : Monomial × Scalar → Scalar)
    (ts : List (Monomial × Scalar)) {common : Monomial}
    (hquotient : ∀ t ∈ ts, t.2.div? content = some (quotient t) ∧ (quotient t).isZero = false)
    (hcommon : common.Elementary) (acc : Poly) :
    ts.foldlM (fun (acc : Poly) t => (t.2.div? content).map fun q =>
        acc.add (term q (common.factors.foldl (fun acc f => acc.mul (.of f.1 (-f.2))) t.1))) acc =
      some ((ts.map fun t => (t.1.mul common.inverse, quotient t)).foldl
        (fun acc t => acc.addTerm t.1 t.2) acc) := by
  induction ts generalizing acc with
  | nil => rfl
  | cons t ts ih =>
      obtain ⟨⟨hdiv, hzero⟩, hrest⟩ := List.forall_mem_cons.mp hquotient
      rw [List.foldlM_cons, hdiv, Option.map_some, foldl_mul_of_neg hcommon, add_term hzero]
      exact ih hrest _

/-- **The factored form**: the content, the common variables and what is left by
dividing every term by both. -/
theorem Elementary.exists_factoring (hp : p.Elementary) (h : p.FitsOverContent) :
    ∃ r rest, content p.sortedTerms = .exact r ∧
      p.sortedTerms.foldlM (fun (acc : Poly) t => (t.2.div? (.exact r)).map fun q =>
        acc.add (term q ((commonVars p.sortedTerms).factors.foldl
          (fun acc f => acc.mul (.of f.1 (-f.2))) t.1))) zero = some rest ∧
      IsFactoring p r (commonVars p.sortedTerms) rest := by
  obtain ⟨r, hvalue, hcontent⟩ := hp.exists_content
  have hmem : ∀ t ∈ p.sortedTerms, t ∈ p.terms := fun t => p.sortedTerms_perm.mem_iff.mp
  have hcommon : IsCommonFactor (commonVars p.sortedTerms) p.sortedTerms :=
    isCommonFactor_commonVars fun t ht => hp.elementary t (hmem t ht)
  set common := commonVars p.sortedTerms
  have hden : (Scalar.ofInt r.num).isZero = false :=
    Scalar.isZero_ofInt_of_ne (Rat.num_ne_zero.mpr hcontent.ne_zero)
  have hscaleFits : ∀ t ∈ p.terms, (t.2 * .ofNat r.den).Fits := fun t ht => by
    have hfits := h t ht
    rwa [hvalue] at hfits
  -- each coefficient has a quotient by the content
  choose! quotient hquotient using fun t (ht : t ∈ p.sortedTerms) =>
    hcontent.exists_div (List.mem_map_of_mem ht) (hscaleFits t (hmem t ht))
      (hp.fits t (hmem t ht)) (hp.ne_zero t (hmem t ht))
  -- no two terms become equal without the common factor, so the rest has as
  -- many as the polynomial
  obtain ⟨hrest, hperm⟩ := elementary_foldl_addTerm
    (p.sortedTerms.map fun t => (t.1.mul common.inverse, quotient t))
    (fun u hu => by
      obtain ⟨t, ht, rfl⟩ := List.mem_map.mp hu
      exact (hcommon.cancel ht (hp.elementary t (hmem t ht))).1)
    (fun u hu => by
      obtain ⟨t, ht, rfl⟩ := List.mem_map.mp hu
      exact (hquotient t ht).2.1)
    (fun u hu => by
      obtain ⟨t, ht, rfl⟩ := List.mem_map.mp hu
      exact (hquotient t ht).2.2.1)
    (List.pairwise_map.mpr (hp.sortedTerms_distinct.imp_of_mem fun {s t} hs ht hne heq =>
      hne (hcommon.injective hs ht (hp.elementary s (hmem s hs)) (hp.elementary t (hmem t ht))
        heq)))
  have hdivided := foldlM_div (.exact r) quotient p.sortedTerms
    (fun t ht => ⟨(hquotient t ht).1, (hquotient t ht).2.2.1⟩) hcommon.elementary zero
  refine ⟨r, _, hvalue, hdivided, hcontent.ne_zero, hcontent.fits, hcommon.elementary, hcommon.pos,
    hrest, ?_, fun f hf => ?_, ?_, hscaleFits, ?_⟩
  · rw [hperm.length_eq, List.length_map, p.sortedTerms_perm.length_eq]
  · obtain ⟨t, ht⟩ : ∃ t, t ∈ p.sortedTerms := by
      refine List.exists_mem_of_ne_nil _ fun hnil => ?_
      have hone : common = .one := by
        show commonVars p.sortedTerms = .one
        rw [hnil]
        rfl
      rw [hone] at hf
      cases hf
    exact ⟨t, hmem t ht, hcommon.exists_mem ht (hp.elementary t (hmem t ht)) hf⟩
  · rintro a ⟨u, hu, f, hf, rfl⟩
    obtain ⟨t, ht, rfl⟩ := List.mem_map.mp (hperm.mem_iff.mp hu)
    exact ⟨t, hmem t ht, (hcommon.cancel ht (hp.elementary t (hmem t ht))).2.2 f hf⟩
  · -- multiplied back, the terms are those of the polynomial times the denominator
    refine (hp.scale r.den_nz hscaleFits).term_mul hden ((hperm.map _).trans ?_)
    have hterm : ∀ t ∈ p.sortedTerms, (common.mul (t.1.mul common.inverse),
        Scalar.ofInt r.num * quotient t) = (t.1, t.2 * .ofNat r.den) := by
      intro t ht
      rw [(hcommon.cancel ht (hp.elementary t (hmem t ht))).2.1, (hquotient t ht).2.2.2]
    rw [Elementary.scale_eq r.den_nz, List.map_map]
    refine (List.Perm.of_eq (List.map_congr_left hterm)).trans ?_
    exact p.sortedTerms_perm.map _

/-! ## The text

The three parts are read one after the other, and each may be missing: a content
of one, the trivial monomial, a content without a denominator.  The product and
the quotient are therefore read by cases of what is written at all. -/

/-- The number before a product, which is left out if it is one. -/
def numberParts (n : ℕ) : List String :=
  if n ≠ 1 then [toString n] else []

/-- The text of a number, a monomial and a rest. -/
def factoredText (r : ℚ) (common : Monomial) (rest : Poly) : String :=
  let product := signedText (r.num < 0) ("*".intercalate (numberParts r.num.natAbs ++
    common.factors.map Atom.positivePowerText ++ [parenthesized rest.text]))
  if r.den ≠ 1 then product ++ "/" ++ toString r.den else product

/-- Where all exponents are positive no factor goes below the bar. -/
theorem map_factorTexts {m : Monomial} (hpos : ∀ f ∈ m.factors, 0 < f.2) :
    m.factorTexts.map Prod.snd = m.factors.map Atom.positivePowerText := by
  rw [m.factorTexts_eq, List.map_map]
  exact List.map_congr_left fun f hf => Atom.powerText_natAbs (hpos f hf)

/-- A factored text is that of a factoring. -/
theorem Elementary.exists_of_factored? (hp : p.Elementary) (h : p.FitsOverContent) {text : String}
    (htext : p.factored? = some text) :
    2 ≤ p.terms.length ∧
      ∃ r common rest, text = factoredText r common rest ∧ IsFactoring p r common rest := by
  obtain ⟨r, rest, hcontent, hdivided, hfactoring⟩ := hp.exists_factoring h
  simp only [factored?, hcontent, map_factorTexts hfactoring.pos] at htext
  split at htext
  · cases htext
  · next hlength =>
      split at htext
      · cases htext
      · refine ⟨not_lt.mp hlength, r, _, rest, ?_, hfactoring⟩
        have hsome := (congrArg (Option.bind · _) hdivided).symm.trans htext
        exact (Option.some.inj hsome).symm

/-- A polynomial is shown in its expanded or in its factored form. -/
theorem compactText_eq (p : Poly) : p.compactText = p.text ∨ p.factored? = some p.compactText := by
  rw [compactText]
  cases p.factored? with
  | none => exact Or.inl rfl
  | some text =>
      by_cases hshort : text.utf8ByteSize ≤ p.text.utf8ByteSize
      · exact Or.inr (congrArg some (if_pos hshort).symm)
      · exact Or.inl (if_neg hshort)

namespace IsFactoring

variable {fragments : Prop} {r : ℚ} {common : Monomial} {rest : Poly} (hp : p.Elementary)
  (h : IsFactoring p r common rest) (hlength : 2 ≤ p.terms.length)
  (hfragments : ∀ a, p.HasAtom a → a.isOpaque = true → fragments)
include h hlength hfragments

/-- The rest in parentheses is read as a sum, since it has two terms at
least. -/
theorem exists_parenthesized :
    ∃ es, ReadsPower (parenthesized rest.text).toList (.plus es) ∧
      (plus es).ClosesTo fragments rest := by
  obtain ⟨e, hread, hclosed, hplus⟩ := h.elementary_rest.exists_formula fun t ht f hf =>
    hfragments f.1 (h.hasAtom_rest f.1 ⟨t, ht, f, hf, rfl⟩)
  obtain ⟨es, rfl⟩ := hplus (h.length_eq.symm ▸ hlength)
  refine ⟨es, ?_, hclosed⟩
  simpa [parenthesized] using hread.parenthesized.readsPower

include hp

/-- Nothing stands before the parentheses but a sign. -/
theorem exists_bareProduct (hunit : r.num.natAbs = 1) (hnil : common.factors = []) :
    ∃ e, ReadsProduct (signedText (r.num < 0) (parenthesized rest.text)).toList e ∧
      e.ClosesTo fragments (p.scale (.ofNat r.den)) ∧ e.asNum? = none := by
  have hone : common = .one := Monomial.eq_of_factors hnil
  obtain ⟨es, hread, hclosed⟩ := h.exists_parenthesized hlength hfragments
  have hmul := h.mul_eq
  refine ⟨_, (readsPower_signed (r.num < 0) hread).readsProduct, ?_, by split <;> rfl⟩
  rcases Int.natAbs_eq_iff.mp hunit with hpositive | hnegative
  · have hsign : decide (r.num < 0) = false := by
      rw [hpositive]
      rfl
    rw [hone, hpositive] at hmul
    have hrest : rest = p.scale (.ofNat r.den) := h.elementary_rest.one_mul.symm.trans hmul
    rw [hsign, if_neg Bool.false_ne_true, ← hrest]
    exact hclosed
  · have hsign : decide (r.num < 0) = true := by
      rw [hnegative]
      rfl
    rw [hone, hnegative] at hmul
    rw [hsign, if_pos rfl]
    exact hclosed.minus (h.elementary_rest.neg_one_mul.symm.trans hmul)
      (hp.scale r.den_nz h.fits_scale).hasOverflow

/-- **The product is read** as the polynomial times the denominator. -/
theorem exists_product :
    ∃ e, ReadsProduct (signedText (r.num < 0) ("*".intercalate (numberParts r.num.natAbs ++
        common.factors.map Atom.positivePowerText ++ [parenthesized rest.text]))).toList e ∧
      e.ClosesTo fragments (p.scale (.ofNat r.den)) ∧ e.asNum? = none := by
  by_cases hbare : r.num.natAbs = 1 ∧ common.factors = []
  · rw [hbare.1, hbare.2]
    exact h.exists_bareProduct hp hlength hfragments hbare.1 hbare.2
  · obtain ⟨q, hq, hnum, -⟩ := h.fits
    obtain rfl := Scalar.exact.inj hq
    obtain ⟨es, hread, hclosed⟩ := h.exists_parenthesized hlength hfragments
    obtain ⟨e, he⟩ := exists_productOf (r.num < 0) (Scalar.fits_natAbs hnum)
      (Int.natAbs_ne_zero.mpr (Rat.num_ne_zero.mpr h.ne_zero)) h.elementary_common
      (fun f hf => hfragments f.1 (h.hasAtom_common f hf)) h.pos
    -- a number other than one is written, and so is one where nothing else
    -- stands before the rest
    have hparts : numberParts r.num.natAbs ++ common.factors.map Atom.positivePowerText =
        productParts r.num.natAbs (common.factors.map Atom.positivePowerText) := by
      by_cases hnumber : r.num.natAbs = 1
      · have hne : common.factors ≠ [] := fun hnil => hbare ⟨hnumber, hnil⟩
        simp [numberParts, productParts, hnumber, hne]
      · simp [numberParts, productParts, hnumber]
    have hterm := he.isTermOf.closesTo.closedForm_eq
    rw [signedInt_natAbs] at hterm
    obtain ⟨hvalue, hshape⟩ := he.takesFactors (not_and_or.mp hbare) (.plus es)
      rest (p.scale (.ofNat r.den)) ⟨rfl, rfl⟩ hclosed (by rw [hterm, h.mul_eq])
      (hp.scale r.den_nz h.fits_scale).hasOverflow
    refine ⟨e.mul (.plus es), ?_, hvalue, hshape⟩
    rw [hparts, toList_signedText_intercalate_concat _ (productParts_ne_nil _ _)]
    exact he.reads.mul hread

/-- **The factored text is read** as a formula whose closed form is the
polynomial. -/
theorem exists_formula :
    ∃ e, ReadsProduct (factoredText r common rest).toList e ∧ e.ClosesTo fragments p := by
  obtain ⟨q, hq, -, hden⟩ := h.fits
  obtain rfl := Scalar.exact.inj hq
  obtain ⟨e, hread, hclosed, hnone⟩ := h.exists_product hp hlength hfragments
  by_cases hone : r.den = 1
  · refine ⟨e, ?_, ?_⟩
    · rw [factoredText, if_neg (not_not.mpr hone)]
      exact hread
    · rwa [hone, hp.scale_one] at hclosed
  · have hdivisor : ReadsPower (toString r.den).toList (num (.ofNat r.den)) :=
      (readsAtom_nat hden).readsPower
    -- the product is no number, so the quotient is not folded
    have hraw : e.div (num (.ofNat r.den)) = .over e (num (.ofNat r.den)) := by
      have hvalue : (Scalar.ofNat r.den).isOne = false :=
        Scalar.isOne_ofInt_of_ne (by simpa using hone)
      have hproper : (num (.ofNat r.den)).isOne = false := by simpa [isOne, asNum?] using hvalue
      rw [Formula.div, hproper, hnone]
      rfl
    refine ⟨e.div (num (.ofNat r.den)), ?_, ?_⟩
    · rw [factoredText, if_pos hone]
      simpa using hread.div hdivisor
    · rw [hraw]
      exact hclosed.quotient (.num (.ofInt hden)) (hp.scale_div r.den_nz h.fits_scale hden)
        hp.hasOverflow

end IsFactoring

section Compact

variable {fragments : Prop} (hp : p.Elementary)
  (hfragments : ∀ a, p.HasAtom a → a.isOpaque = true → fragments) (h : p.FitsOverContent)
include hp hfragments h

/-- **The factored text of a polynomial is read** as a formula whose closed form
is the polynomial.
-/
theorem Elementary.exists_factored {text : String} (htext : p.factored? = some text) :
    ∃ e, ReadsSum text.toList e ∧ e.ClosesTo fragments p := by
  obtain ⟨hlength, r, common, rest, rfl, hfactoring⟩ := hp.exists_of_factored? h htext
  obtain ⟨e, hread, hclosed⟩ := hfactoring.exists_formula hp hlength hfragments
  exact ⟨e, hread.readsSum, hclosed⟩

/-- **The text of a polynomial is read** as a formula whose closed form is the
polynomial. -/
theorem Elementary.exists_compact :
    ∃ e, ReadsSum p.compactText.toList e ∧ e.ClosesTo fragments p := by
  rcases p.compactText_eq with htext | htext
  · obtain ⟨e, hread, hclosed, -⟩ := hp.exists_formula fun t ht f hf =>
      hfragments f.1 ⟨t, ht, f, hf, rfl⟩
    rw [htext]
    exact ⟨e, hread, hclosed⟩
  · exact hp.exists_factored hfragments h htext

end Compact

end Poly

end CostAnalysis
