import CostAnalysis.Proofs.Recurrence.Counting
import CostAnalysis.Proofs.Recurrence.RoundTrip
import Mathlib.Data.Nat.ModEq

/-!
# What the solver can rely on

The methods of solution take logarithms to the amounts of the terms, count the
terms to tell the classes apart, and check none of this.  It is for those who
make lists of terms to keep equal sizes together and to reject what does not
make the problem smaller.  There are two of them, the reader of recurrences and
the derivation from a procedure, and both do (`terms_wellFormed`).

**Equal sizes together.**  Both add up their terms with `RecursiveTerm.merge`.
It keeps the sizes apart whatever is merged (`nodup_foldl_merge`), and what it
does to the coefficients is said of each size on its own: their sum,
`RecursiveTerm.sumAt`, grows by the coefficient of the term that is merged.
Where sizes are apart, the sum at a size is the coefficient of the one term that
has it.

**Smaller problems.**  The reader compares each amount with the least that
shrinks the problem.  The derivation takes its amounts from constants of the
program, and every way to one passes a comparison: in a division, in a midpoint
that is found again through its variable, and in a subtraction from a parameter
(`Stmt.shrinks_reductionOf`).

Coefficients are words of 32 bits, and a sum that outgrows one loses its high
bits: two terms of one size with the coefficient `2 ^ 31` each would leave one
with the coefficient zero.
-/

namespace CostAnalysis

namespace RecursiveTerm

/-! ## Sizes

Terms that do the same to the size of the problem are merged into one.  The
coefficients of one size are added by `sumAt`, so that merging has a statement
that does not depend on the order of the terms. -/

/-- What a term does to the size of the problem. -/
def size (t : RecursiveTerm) : ReductionKind × ℕ :=
  (t.kind, t.amount)

/-- The coefficients of the terms of a size together. -/
def sumAt (s : ReductionKind × ℕ) (ts : List RecursiveTerm) : ℕ :=
  ((ts.filter fun t => t.size = s).map coefficient).sum

/-- No coefficient of the merged terms outgrows its word. -/
def SumsFit (ts : List RecursiveTerm) : Prop :=
  ∀ s, sumAt s ts < Numeric.twoTo 32

/-- A list of terms as the methods of solution expect it. -/
structure WellFormed (ts : List RecursiveTerm) : Prop where
  /-- Each size is there once. -/
  nodup : (ts.map size).Nodup
  coefficient_pos : ∀ t ∈ ts, 1 ≤ t.coefficient
  two_le_division : ∀ t ∈ ts, t.kind = .division → 2 ≤ t.amount
  one_le_subtraction : ∀ t ∈ ts, t.kind = .subtraction → 1 ≤ t.amount

variable {t u : RecursiveTerm} {ts found : List RecursiveTerm} {s : ReductionKind × ℕ}

/-- Two terms have one size if they reduce the problem in the same way by the
same amount. -/
theorem size_eq_iff : u.size = t.size ↔ u.kind = t.kind ∧ u.amount = t.amount :=
  Prod.mk_inj

/-- Without terms there is nothing to add up. -/
@[simp] theorem sumAt_nil : sumAt s [] = 0 := rfl

theorem sumAt_cons :
    sumAt s (t :: ts) = (if t.size = s then t.coefficient else 0) + sumAt s ts := by
  by_cases h : t.size = s <;> simp [sumAt, h]

theorem sumAt_cons_of_eq (h : t.size = s) : sumAt s (t :: ts) = t.coefficient + sumAt s ts := by
  rw [sumAt_cons, if_pos h]

theorem sumAt_cons_of_ne (h : t.size ≠ s) : sumAt s (t :: ts) = sumAt s ts := by
  rw [sumAt_cons, if_neg h, Nat.zero_add]

theorem sumAt_append : sumAt s (ts ++ found) = sumAt s ts + sumAt s found := by
  simp [sumAt]

/-- No term has a greater coefficient than all terms of its size together. -/
theorem coefficient_le_sumAt (h : t ∈ ts) : t.coefficient ≤ sumAt t.size ts :=
  List.le_sum_of_mem (List.mem_map_of_mem (List.mem_filter.mpr ⟨h, by simp⟩))

/-- Nothing is counted at a size that no term has. -/
theorem sumAt_eq_zero (h : s ∉ ts.map size) : sumAt s ts = 0 := by
  have hnone : (ts.filter fun t => t.size = s) = [] :=
    List.filter_eq_nil_iff.mpr fun t ht hsize =>
      h (List.mem_map.mpr ⟨t, ht, of_decide_eq_true hsize⟩)
  rw [sumAt, hnone]
  rfl

/-- No sum at a size outgrows a word if the sum over all sizes does not. -/
theorem sumsFit_of_lt (h : (ts.map coefficient).sum < Numeric.twoTo 32) : SumsFit ts := by
  intro s
  refine lt_of_le_of_lt ?_ h
  clear h
  induction ts with
  | nil => exact Nat.le_refl 0
  | cons t ts ih =>
      rw [sumAt_cons, List.map_cons, List.sum_cons]
      split <;> omega

/-- Where sizes are apart, the sum at a size is the coefficient of its term. -/
theorem sumAt_of_nodup (hts : (ts.map size).Nodup) (ht : t ∈ ts) :
    sumAt t.size ts = t.coefficient := by
  induction ts with
  | nil => cases ht
  | cons u us ih =>
      obtain ⟨hnew, hus⟩ := List.nodup_cons.mp hts
      rcases List.mem_cons.mp ht with rfl | ht
      · rw [sumAt_cons_of_eq rfl, sumAt_eq_zero hnew, Nat.add_zero]
      · have hne : u.size ≠ t.size := fun heq => hnew (heq ▸ List.mem_map_of_mem ht)
        rw [sumAt_cons_of_ne hne, ih hus ht]

/-- The number of recursive calls, before it is put into a word. -/
def calls (ts : List RecursiveTerm) : ℕ :=
  (ts.map coefficient).sum

/-- Without terms there are no calls. -/
@[simp] theorem calls_nil : calls [] = 0 := rfl

/-- The calls of the first term count. -/
@[simp] theorem calls_cons : calls (t :: ts) = t.coefficient + calls ts :=
  List.sum_cons

theorem calls_append_singleton : calls (ts ++ [t]) = calls ts + t.coefficient := by
  simp [calls]

/-- The total of the coefficients is the number of calls up to whole words. -/
theorem totalCoefficient_eq (ts : List RecursiveTerm) :
    totalCoefficient ts = calls ts % Numeric.twoTo 32 := by
  induction ts using List.reverseRecOn with
  | nil => rfl
  | append_singleton ts t ih =>
      unfold totalCoefficient at ih ⊢
      rw [List.foldl_append, List.foldl_cons, List.foldl_nil, ih,
        calls_append_singleton]
      exact Nat.mod_add_mod _ _ _

/-! ## Merging

A merge adds to the coefficient of its size or appends the term.  So the sizes
stay different, and what is kept along a run of merges is the sum at each size,
as a word. -/

/-- Merging a term leaves the sizes as they are, or adds the size of the term at
the end. -/
theorem map_size_merge : (merge t ts).map size =
    if t.size ∈ ts.map size then ts.map size else ts.map size ++ [t.size] := by
  induction ts with
  | nil => simp [merge]
  | cons u us ih =>
      rw [merge]
      split
      · next hsame =>
          have hsize : t.size = u.size := (size_eq_iff.mpr hsame).symm
          rw [if_pos (by simp [hsize])]
          rfl
      · next hother =>
          have hne : t.size ≠ u.size := fun hsize => hother (size_eq_iff.mp hsize.symm)
          rw [List.map_cons, List.map_cons, ih]
          simp only [List.mem_cons, hne, false_or]
          split <;> simp

/-- **Merging keeps sizes apart**: a term joins the one of its size, or it is
the first of its size.
-/
theorem nodup_merge (t : RecursiveTerm) (hts : (ts.map size).Nodup) :
    ((merge t ts).map size).Nodup := by
  rw [map_size_merge]
  split
  · exact hts
  · next hnew => exact List.nodup_append.mpr ⟨hts, List.nodup_singleton _, by grind⟩

/-- The sizes after merging are those before and that of the term. -/
theorem mem_size_merge : s ∈ (merge t ts).map size ↔ s ∈ ts.map size ∨ s = t.size := by
  rw [map_size_merge]
  split
  · next hold => exact ⟨Or.inl, fun h => h.elim id fun heq => heq ▸ hold⟩
  · rw [List.mem_append, List.mem_singleton]

theorem addCoefficients_modEq (a b : ℕ) :
    addCoefficients a b ≡ a + b [MOD Numeric.twoTo 32] :=
  Nat.mod_modEq _ _

/-- **Merging a term** adds it at its size, up to whole words. -/
theorem sumAt_merge :
    sumAt s (merge t ts) ≡ sumAt s ts + sumAt s [t] [MOD Numeric.twoTo 32] := by
  induction ts with
  | nil => simp [merge, Nat.ModEq.refl]
  | cons u us ih =>
      rw [merge]
      split
      · next hsame =>
          have hsize : u.size = t.size := size_eq_iff.mpr hsame
          have hraised : ({ u with coefficient := addCoefficients u.coefficient t.coefficient } :
              RecursiveTerm).size = t.size := hsize
          -- only the sum at the size of the term changes, and it grows up to
          -- whole words
          simp only [sumAt_cons, hraised, hsize, sumAt_nil, Nat.add_zero]
          split
          · have hadd := addCoefficients_modEq u.coefficient t.coefficient
            rw [Nat.add_right_comm]
            exact hadd.add_right _
          · exact Nat.ModEq.refl _
      · rw [sumAt_cons, sumAt_cons, Nat.add_assoc]
        exact ih.add_left _

/-- Merging adds the calls of the term, up to whole words.  In a list that is
gone through, the one term that changes is the first of the size. -/
theorem calls_merge : calls (merge t ts) ≡ calls ts + t.coefficient [MOD Numeric.twoTo 32] := by
  induction ts with
  | nil => simp [merge, Nat.ModEq.refl]
  | cons u us ih =>
      rw [merge]
      split
      · have hadd := addCoefficients_modEq u.coefficient t.coefficient
        rw [calls_cons, calls_cons, Nat.add_right_comm]
        exact hadd.add_right _
      · rw [calls_cons, calls_cons, Nat.add_assoc]
        exact ih.add_left _

/-- The coefficients of merged terms are words. -/
theorem coefficient_lt_of_mem_merge (ht : t.coefficient < Numeric.twoTo 32)
    (hts : ∀ u ∈ ts, u.coefficient < Numeric.twoTo 32) :
    ∀ u ∈ merge t ts, u.coefficient < Numeric.twoTo 32 := by
  induction ts with
  | nil => exact List.forall_mem_singleton.mpr ht
  | cons u us ih =>
      obtain ⟨hu, hus⟩ := List.forall_mem_cons.mp hts
      rw [merge]
      split
      · exact List.forall_mem_cons.mpr ⟨Nat.mod_lt _ (by decide), hus⟩
      · exact List.forall_mem_cons.mpr ⟨hu, ih hus⟩

/-- However many terms are merged, their sizes are apart. -/
theorem nodup_foldl_merge (found : List RecursiveTerm) :
    ((found.foldl (fun ts t => merge t ts) []).map size).Nodup :=
  List.foldlRecOn (motive := fun ts : List RecursiveTerm => (ts.map size).Nodup) found _
    List.nodup_nil fun _ hts t _ => nodup_merge t hts

/-- The sizes of a sum are those of its terms. -/
theorem mem_size_foldl_merge :
    s ∈ (found.foldl (fun ts t => merge t ts) []).map size ↔ s ∈ found.map size := by
  induction found using List.reverseRecOn with
  | nil => rfl
  | append_singleton found t ih =>
      rw [List.foldl_append, List.foldl_cons, List.foldl_nil, mem_size_merge, ih, List.map_append,
        List.mem_append, List.map_singleton, List.mem_singleton]

/-- Terms add up at each size, up to whole words. -/
theorem sumAt_foldl_merge :
    sumAt s (found.foldl (fun ts t => merge t ts) []) ≡ sumAt s found [MOD Numeric.twoTo 32] := by
  induction found using List.reverseRecOn with
  | nil => exact Nat.ModEq.refl _
  | append_singleton found t ih =>
      rw [List.foldl_append, List.foldl_cons, List.foldl_nil, sumAt_append]
      exact sumAt_merge.trans (ih.add_right _)

theorem calls_foldl_merge :
    calls (found.foldl (fun ts t => merge t ts) []) ≡ calls found [MOD Numeric.twoTo 32] := by
  induction found using List.reverseRecOn with
  | nil => exact Nat.ModEq.refl _
  | append_singleton found t ih =>
      rw [List.foldl_append, List.foldl_cons, List.foldl_nil, calls_append_singleton]
      exact calls_merge.trans (ih.add_right _)

/-- **The coefficient of a merged term** is the sum at its size, up to whole
words. -/
theorem coefficient_of_mem_foldl_merge (hwords : ∀ u ∈ found, u.coefficient < Numeric.twoTo 32)
    (ht : t ∈ found.foldl (fun ts t => merge t ts) []) :
    t.coefficient = sumAt t.size found % Numeric.twoTo 32 := by
  have hlt : ∀ u ∈ found.foldl (fun ts t => merge t ts) [],
      u.coefficient < Numeric.twoTo 32 :=
    List.foldlRecOn (motive := fun ts : List RecursiveTerm =>
        ∀ u ∈ ts, u.coefficient < Numeric.twoTo 32) found _ nofun
      fun _ hts u hu => coefficient_lt_of_mem_merge (hwords u hu) hts
  have hsum := sumAt_of_nodup (nodup_foldl_merge found) ht
  rw [← Nat.mod_eq_of_lt (hlt t ht), ← hsum]
  exact sumAt_foldl_merge

/-- **A sum of terms.**  The terms that are merged from ones that make the
problem smaller are well formed, and each coefficient is the sum at its size, as
long as these sums fit a word. -/
theorem wellFormed_foldl_merge (hpos : ∀ t ∈ found, 1 ≤ t.coefficient)
    (hleast : ∀ t ∈ found, t.kind.least ≤ t.amount)
    (hfits : SumsFit found) :
    WellFormed (found.foldl (fun ts t => merge t ts) []) ∧
      ∀ t ∈ found.foldl (fun ts t => merge t ts) [], t.coefficient = sumAt t.size found := by
  have hsum : ∀ t ∈ found.foldl (fun ts t => merge t ts) [],
      t.coefficient = sumAt t.size found := fun t ht => by
    rw [coefficient_of_mem_foldl_merge
      (fun u hu => (coefficient_le_sumAt hu).trans_lt (hfits u.size)) ht]
    exact Nat.mod_eq_of_lt (hfits t.size)
  -- every size of the sum was found in a term
  have horigin : ∀ t ∈ found.foldl (fun ts t => merge t ts) [], ∃ u ∈ found, u.size = t.size :=
    fun t ht => List.mem_map.mp (mem_size_foldl_merge.mp (List.mem_map_of_mem ht))
  have hamount : ∀ t ∈ found.foldl (fun ts t => merge t ts) [], t.kind.least ≤ t.amount := by
    intro t ht
    obtain ⟨u, hu, hsize⟩ := horigin t ht
    obtain ⟨hkind, hamount⟩ := size_eq_iff.mp hsize
    rw [← hkind, ← hamount]
    exact hleast u hu
  refine ⟨⟨nodup_foldl_merge found, fun t ht => ?_, fun t ht hkind => ?_, fun t ht hkind => ?_⟩,
    hsum⟩
  · obtain ⟨u, hu, hsize⟩ := horigin t ht
    rw [hsum t ht, ← hsize]
    exact (hpos u hu).trans (coefficient_le_sumAt hu)
  · simpa [hkind, ReductionKind.least] using hamount t ht
  · simpa [hkind, ReductionKind.least] using hamount t ht

end RecursiveTerm

/-! ## Terms that are read

A term that is written is refused if it does not make the problem smaller, and
so is a recurrence with terms of two kinds. -/

namespace WrittenRecurrence

/-- A term that is accepted makes the problem smaller. -/
theorem shrinks_toTerm {source : String} {m : TermMatch} {t : RecursiveTerm}
    (h : m.toTerm source = .ok t) : 1 ≤ t.coefficient ∧ t.kind.least ≤ t.amount := by
  -- one check for both kinds of reduction, with the least amount of each
  have haccepted : ∀ {c a least : ℕ} {fault : RecurrenceFault},
      (if c = 0 ∨ a < least then Except.error fault else .ok ⟨c, m.kind, a⟩) = Except.ok t →
        t.kind = m.kind ∧ 1 ≤ t.coefficient ∧ least ≤ t.amount := by
    intro c a least fault hok
    split at hok
    · cases hok
    · next hshrinks =>
        obtain rfl := Except.ok.inj hok
        obtain ⟨hpos, hamount⟩ := not_or.mp hshrinks
        exact ⟨rfl, Nat.one_le_iff_ne_zero.mpr hpos, Nat.not_lt.mp hamount⟩
  rw [TermMatch.toTerm] at h
  split at h
  · obtain ⟨hkind, hpos, hleast⟩ := haccepted h
    refine ⟨hpos, ?_⟩
    rw [hkind]
    cases hm : m.kind <;> simpa [hm, ReductionKind.least] using hleast
  · cases h

/-- Each of the results comes from an element of the list. -/
theorem exists_of_mem_mapM {ε α β : Type} {f : α → Except ε β} {xs : List α} {ys : List β}
    (h : xs.mapM f = .ok ys) {y : β} (hy : y ∈ ys) : ∃ x ∈ xs, f x = .ok y := by
  induction xs generalizing ys with
  | nil =>
      obtain rfl := Except.ok.inj h
      cases hy
  | cons x xs ih =>
      rw [List.mapM_cons] at h
      obtain ⟨z, hz, h⟩ := exists_of_bind_eq_ok h
      obtain ⟨zs, hzs, h⟩ := exists_of_bind_eq_ok h
      obtain rfl := Except.ok.inj h
      rcases List.mem_cons.mp hy with rfl | hy
      · exact ⟨x, List.mem_cons_self, hz⟩
      · obtain ⟨x', hx', hy⟩ := ih hzs hy
        exact ⟨x', List.mem_cons_of_mem x hx', hy⟩

/-- A written term that was accepted makes a call at least, and makes the
problem smaller. -/
theorem shrinks_of_mem_writtenTerms {text : String} {found : List RecursiveTerm}
    (h : writtenTerms text = .ok found) {t : RecursiveTerm} (ht : t ∈ found) :
    1 ≤ t.coefficient ∧ t.kind.least ≤ t.amount := by
  obtain ⟨m, -, hm⟩ := exists_of_mem_mapM h ht
  exact shrinks_toTerm hm

/-- There is a term, and all terms are of its kind. -/
theorem sameKind_of_read {text : String} {w : WrittenRecurrence} (h : read text = .ok w) :
    w.terms ≠ [] ∧ ∀ t ∈ w.terms, ∀ u ∈ w.terms, t.kind = u.kind := by
  obtain ⟨found, -, h⟩ := exists_of_bind_eq_ok h
  simp only at h
  split at h
  · cases h
  · next first rest heq =>
      split at h
      · cases h
      · next hkinds =>
          split at h
          · cases h
          · obtain rfl := Except.ok.inj h
            have hfirst : ∀ t ∈ first :: rest, t.kind = first.kind := by
              simpa using hkinds
            refine ⟨heq ▸ List.cons_ne_nil first rest, fun t ht u hu => ?_⟩
            rw [hfirst t (heq ▸ ht), hfirst u (heq ▸ hu)]

end WrittenRecurrence

/-! ## Terms that are derived

The argument of a self-call is recognized by its form: a quotient by a constant,
a difference with one, or a midpoint.  In each of these the size becomes smaller
by the form alone. -/

namespace Expr

/-- The first divisor in a list of expressions is that of the first expression
with one. -/
theorem firstConstantDivisor?_eq_findSome? (es : List Expr) :
    firstConstantDivisor? es = es.findSome? constantDivisor? := by
  induction es with
  | nil => rfl
  | cons e es ih =>
      rw [firstConstantDivisor?, ih, List.findSome?_cons]
      cases e.constantDivisor? <;> rfl

/-- A divisor that is recognized is at least two. -/
theorem two_le_divisor? {op : BinaryOp} {right : Expr} {d : ℕ}
    (h : divisor? op right = some (some d)) : 2 ≤ d := by
  have hword : ∀ z : ℤ, (if 2 ≤ z then some (Literal.int z).word? else none) = some (some d) →
      2 ≤ d := by
    intro z hz
    obtain ⟨hle, hz⟩ := Option.ite_none_right_eq_some.mp hz
    obtain ⟨-, hd⟩ := Option.ite_none_right_eq_some.mp (Option.some.inj hz)
    have := Option.some.inj hd
    omega
  unfold divisor? at h
  split at h
  · exact hword _ h
  · exact hword _ h
  · cases h

/-- The constant is that of the expression itself, or it is found in a part of
it. -/
theorem constantDivisor?_cases {e : Expr} {d : ℕ} (h : e.constantDivisor? = some d) :
    2 ≤ d ∨ ∃ c ∈ e.children, c.constantDivisor? = some d := by
  have hparts : ∀ {es : List Expr}, es.findSome? constantDivisor? = some d →
      ∃ c ∈ es, c.constantDivisor? = some d := List.exists_of_findSome?_eq_some
  have hpair : ∀ {a b : Expr}, (constantDivisor? a).or (constantDivisor? b) = some d →
      ∃ c ∈ [a, b], c.constantDivisor? = some d := fun {a b} hor => by
    rcases Option.or_eq_some_iff.mp hor with ha | ⟨-, hb⟩
    · exact ⟨a, by simp, ha⟩
    · exact ⟨b, by simp, hb⟩
  cases e with
  | var name => cases h
  | literal value => cases h
  -- only here a divisor is recognized; all others pass on those of their parts
  | binary op a b =>
      rw [constantDivisor?] at h
      split at h
      · next value hvalue => exact .inl (two_le_divisor? (hvalue.trans (congrArg some h)))
      · exact .inr (hpair h)
  | unary op a => exact .inr ⟨a, by simp [children], h⟩
  | compare op a b => exact .inr (hpair h)
  | call name args => exact .inr (hparts (firstConstantDivisor?_eq_findSome? args ▸ h))
  | index a i => exact .inr (hpair h)
  | array es => exact .inr (hparts (firstConstantDivisor?_eq_findSome? es ▸ h))

/-- A constant divisor that is found is at least two. -/
theorem two_le_constantDivisor? {e : Expr} {d : ℕ} (h : e.constantDivisor? = some d) : 2 ≤ d := by
  induction e using children_induction with
  | h e ih =>
    rcases constantDivisor?_cases h with hd | ⟨c, hc, hd⟩
    · exact hd
    · exact ih c hc hd

/-- What is recognized as subtracted from a parameter is at least one. -/
theorem one_le_shift? {f : Function} {e : Expr} {k : ℕ} (h : shift? f e = some k) : 1 ≤ k := by
  unfold shift? at h
  split at h
  · obtain ⟨hshift, h⟩ := Option.ite_none_right_eq_some.mp h
    obtain ⟨-, hk⟩ := Option.ite_none_right_eq_some.mp h
    have hz := of_decide_eq_true (Bool.and_eq_true_iff.mp hshift).2
    have := Option.some.inj hk
    omega
  · cases h

end Expr

namespace Reduction

/-- A reduction that was recognized makes the problem smaller. -/
def Shrinks (r : Reduction) : Prop :=
  ∀ t, r.term? = some t → t.coefficient = 1 ∧ t.kind.least ≤ t.amount

/-- A division by at least two makes the problem smaller. -/
theorem shrinks_divide {d : ℕ} (h : 2 ≤ d) : (divide d).Shrinks := by
  rintro _ ⟨⟩
  exact ⟨rfl, h⟩

theorem shrinks_subtract {k : ℕ} (h : 1 ≤ k) : (subtract k).Shrinks := by
  rintro _ ⟨⟩
  exact ⟨rfl, h⟩

theorem shrinks_unknown (args : String) : (unknown args).Shrinks :=
  nofun

end Reduction

namespace Stmt

/-- A midpoint divides by two at least. -/
theorem two_le_of_mem_midpoints {body : Block} {name : String} {d : ℕ}
    (h : (name, d) ∈ midpoints body) : 2 ≤ d := by
  obtain ⟨st, -, hst⟩ := List.mem_filterMap.mp (List.mem_reverse.mp h)
  split at hst
  · obtain ⟨d', hd, heq⟩ := Option.map_eq_some_iff.mp hst
    cases heq
    exact Expr.two_le_constantDivisor? hd
  · cases hst

variable {f : Function} {mids : List (String × ℕ)}

/-- What is recognized in the arguments of a call makes the problem smaller. -/
theorem shrinks_reductionOf (hmids : ∀ m ∈ mids, 2 ≤ m.2) (args : List Expr) :
    (reductionOf f mids args).Shrinks := by
  rw [reductionOf]
  split
  · next d hd =>
      obtain ⟨arg, -, hd⟩ := List.exists_of_findSome?_eq_some hd
      rcases Option.or_eq_some_iff.mp hd with hd | ⟨-, hd⟩
      · exact Reduction.shrinks_divide (Expr.two_le_constantDivisor? hd)
      · obtain ⟨name, -, hd⟩ := List.exists_of_findSome?_eq_some hd
        obtain ⟨_, _, hmem, -⟩ := List.lookup_eq_some_iff.mp hd
        exact Reduction.shrinks_divide (hmids (name, d) (by simp [hmem]))
  · split
    · next k hk =>
        obtain ⟨arg, -, hk⟩ := List.exists_of_findSome?_eq_some hk
        exact Reduction.shrinks_subtract (Expr.one_le_shift? hk)
    · exact Reduction.shrinks_unknown _

/-- The busier of two arms is one of them. -/
theorem mem_busier {α : Type} {x : α} {xs ys : List α} (h : x ∈ busier xs ys) :
    x ∈ xs ∨ x ∈ ys := by
  rw [busier] at h
  split at h
  · exact .inr h
  · exact .inl h

/-- A reduction of a statement is one of its own calls, or of a statement in its
blocks. -/
theorem mem_reductions_cases {st : Stmt} {r : Reduction} (h : r ∈ reductions f mids st) :
    r ∈ ownReductions f mids st ∨ ∃ body ∈ st.blocks, ∃ t ∈ body, r ∈ reductions f mids t := by
  have hblock : ∀ {body : Block}, r ∈ reductionsAll f mids body →
      ∃ t ∈ body, r ∈ reductions f mids t := fun hr =>
    List.mem_flatMap.mp (reductionsAll_eq_flatMap f mids _ ▸ hr)
  rcases reductions_cases f mids st with ⟨yes, no, -, hblocks, hst⟩ | hst
  · rw [hst] at h
    refine (List.mem_append.mp h).imp_right fun h => ?_
    rcases mem_busier h with h | h
    · exact ⟨yes, by simp [hblocks], hblock h⟩
    · exact ⟨no, by simp [hblocks], hblock h⟩
  · rw [hst] at h
    refine (List.mem_append.mp h).imp_right fun h => ?_
    obtain ⟨body, hbody, h⟩ := List.mem_flatMap.mp h
    exact ⟨body, hbody, hblock h⟩

/-- All that is found in a statement makes the problem smaller, if the midpoints
do.  The induction is on the statement, and a branch gives what one of its arms
gives. -/
theorem shrinks_reductions (hmids : ∀ m ∈ mids, 2 ≤ m.2) (st : Stmt) :
    ∀ r ∈ reductions f mids st, r.Shrinks := by
  induction st using blocks_induction with
  | h st ih =>
    intro r hr
    rcases mem_reductions_cases hr with hr | ⟨body, hbody, t, ht, hr⟩
    · obtain ⟨c, -, rfl⟩ := List.mem_map.mp hr
      exact shrinks_reductionOf hmids c.2
    · exact ih body hbody t ht r hr

end Stmt

/-- Every reduction of a procedure makes the problem smaller. -/
theorem Function.shrinks_reductions (f : Function) : ∀ r ∈ f.reductions, r.Shrinks := by
  intro r hr
  rw [reductions, Stmt.reductionsAll_eq_flatMap] at hr
  obtain ⟨st, -, hr⟩ := List.mem_flatMap.mp hr
  exact Stmt.shrinks_reductions (fun m hm => Stmt.two_le_of_mem_midpoints hm) st r hr

/-! ## Both makers of terms -/

open RecursiveTerm in
/-- **The terms that reach the solver are well formed.**  The terms of a
recurrence that is read are of one kind and there is one; as long as the
coefficients of no size add up to more than a word holds, its terms are well
formed and their coefficients are the sums of those that were written.  The
terms of a recurrence that is derived from a procedure are well formed as long
as no size is called too often. -/
theorem terms_wellFormed :
    (∀ text w, WrittenRecurrence.read text = .ok w →
      w.terms ≠ [] ∧ (∀ t ∈ w.terms, ∀ u ∈ w.terms, t.kind = u.kind) ∧
      ∃ found, WrittenRecurrence.writtenTerms text = .ok found ∧ (SumsFit found →
        WellFormed w.terms ∧ ∀ t ∈ w.terms, t.coefficient = sumAt t.size found)) ∧
    ∀ rules p name source d, DerivedRecurrence.ofProgram rules p name source = .ok d →
      ∃ f, p.function? name = some f ∧
        (SumsFit (f.reductions.filterMap Reduction.term?) → WellFormed d.terms) := by
  constructor
  -- the reader
  · intro text w h
    obtain ⟨hne, hkinds⟩ := WrittenRecurrence.sameKind_of_read h
    obtain ⟨found, hfound, hterms, -⟩ := WrittenRecurrence.of_read h
    refine ⟨hne, hkinds, found, hfound, fun hfits => ?_⟩
    rw [hterms]
    exact wellFormed_foldl_merge
      (fun t ht => (WrittenRecurrence.shrinks_of_mem_writtenTerms hfound ht).1)
      (fun t ht => (WrittenRecurrence.shrinks_of_mem_writtenTerms hfound ht).2) hfits
  -- the derivation
  · intro rules p name source d h
    cases hf : p.function? name with
    | none =>
        rw [DerivedRecurrence.ofProgram, hf] at h
        cases h
    | some f =>
        obtain ⟨d', hd', hterms, -⟩ := DerivedRecurrence.exists_ofProgram rules source hf
        obtain rfl := Except.ok.inj (h.symm.trans hd')
        have hshrinks : ∀ t ∈ f.reductions.filterMap Reduction.term?,
            t.coefficient = 1 ∧ t.kind.least ≤ t.amount := fun t ht => by
          obtain ⟨r, hr, ht⟩ := List.mem_filterMap.mp ht
          exact f.shrinks_reductions r hr t ht
        refine ⟨f, rfl, fun hfits => ?_⟩
        rw [hterms]
        exact (wellFormed_foldl_merge (fun t ht => (hshrinks t ht).1.ge)
          (fun t ht => (hshrinks t ht).2) hfits).1

open RecursiveTerm in
/-- Two terms of one size that are read, and the two sizes of `fibonacci`. -/
theorem terms_wellFormed_repeated :
    (∃ w, WrittenRecurrence.read "T(n) = 2T(n/2) + n + T(n/2)" = .ok w ∧
      w.terms = [⟨3, .division, 2⟩] ∧ WellFormed w.terms) ∧
    ∃ d, DerivedRecurrence.ofProgram ⟨.exact (1 / 2), false, 1, .var "n", .var "n"⟩
        ⟨[DerivedRecurrence.fibonacci]⟩ "fib" "" = .ok d ∧
      d.terms = [⟨1, .subtraction, 1⟩, ⟨1, .subtraction, 2⟩] ∧ WellFormed d.terms := by
  obtain ⟨hread, hderived⟩ := terms_wellFormed
  constructor
  · have hterms : (WrittenRecurrence.read "T(n) = 2T(n/2) + n + T(n/2)").toOption.map
        WrittenRecurrence.terms = some [⟨3, .division, 2⟩] := by
      decide +kernel
    have hwritten : (WrittenRecurrence.writtenTerms "T(n) = 2T(n/2) + n + T(n/2)").toOption =
        some [⟨2, .division, 2⟩, ⟨1, .division, 2⟩] := by
      decide +kernel
    obtain ⟨w, hw, hw'⟩ := Option.map_eq_some_iff.mp hterms
    have hok := WrittenRecurrence.eq_ok_of_toOption hw
    obtain ⟨-, -, found, hfound, hformed⟩ := hread _ w hok
    obtain rfl := Except.ok.inj
      ((WrittenRecurrence.eq_ok_of_toOption hwritten).symm.trans hfound)
    exact ⟨w, hok, hw', (hformed (sumsFit_of_lt (by decide))).1⟩
  · have hfunction : (⟨[DerivedRecurrence.fibonacci]⟩ : Program).function? "fib" =
        some DerivedRecurrence.fibonacci := rfl
    obtain ⟨d, hd, hterms, -⟩ := DerivedRecurrence.exists_ofProgram
      ⟨.exact (1 / 2), false, 1, .var "n", .var "n"⟩ "" hfunction
    obtain ⟨f, hf, hformed⟩ := hderived _ _ _ _ d hd
    obtain rfl := Option.some.inj (hfunction.symm.trans hf)
    exact ⟨d, hd, hterms.trans (by decide), hformed (sumsFit_of_lt (by decide))⟩

end CostAnalysis
