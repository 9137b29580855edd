import CostAnalysis.Recurrence.Method.Iteration
import CostAnalysis.Proofs.Recurrence.Terms

/-!
# Word arithmetic of recurrences

Coefficients and amounts are words of 32 bits.  The reader checks that each
number which is written fits one; what is made of the numbers afterwards is not
checked.  There are three such places: terms of one size are merged by adding
their coefficients, the number of calls is the sum of all of them, and unfolding
a subtraction once more doubles its amount.

**What comes out.**  Each of the three gives the mathematical result up to whole
words, over any number of repeated terms
(`RecursiveTerm.coefficient_of_mem_foldl_merge`,
`RecursiveTerm.totalCoefficient_eq`).  As the numbers are not negative, a sum
that leaves the word on the way does not come back: the result is exact if and
only if the sum over all that was written fits the word.  So the equivalences of
`read_modulo_words` say exactly for which texts no operation wraps.
-/

namespace CostAnalysis

namespace RecursiveTerm

variable {found : List RecursiveTerm}

/-- The merged coefficients are exact if and only if no sum at a size outgrows
its word. -/
theorem coefficients_exact_iff (hwords : ∀ u ∈ found, u.coefficient < Numeric.twoTo 32) :
    (∀ t ∈ found.foldl (fun ts t => merge t ts) [], t.coefficient = sumAt t.size found) ↔
      SumsFit found := by
  constructor
  · intro hexact s
    by_cases hs : s ∈ found.map size
    · -- the size is that of a merged term, whose coefficient is a word
      obtain ⟨t, ht, rfl⟩ := List.mem_map.mp (mem_size_foldl_merge.mpr hs)
      rw [← hexact t ht, coefficient_of_mem_foldl_merge hwords ht]
      exact Nat.mod_lt _ (by decide)
    · rw [sumAt_eq_zero hs]
      decide
  · intro hfits t ht
    rw [coefficient_of_mem_foldl_merge hwords ht]
    exact Nat.mod_eq_of_lt (hfits t.size)

/-- The total over merged terms is the number of calls that were written, up to
whole words. -/
theorem totalCoefficient_foldl_merge :
    totalCoefficient (found.foldl (fun ts t => merge t ts) []) =
      calls found % Numeric.twoTo 32 := by
  rw [totalCoefficient_eq]
  exact calls_foldl_merge

end RecursiveTerm

theorem mod_twoTo_eq_iff (k n : ℕ) : n % Numeric.twoTo k = n ↔ n < Numeric.twoTo k :=
  Nat.mod_eq_iff_lt (Nat.pow_pos Nat.two_pos).ne'

namespace Iteration

/-- Twice an amount is exact if and only if the amount fits one bit less. -/
theorem twice_exact_iff (b : ℕ) : twice b = 2 * b ↔ b < Numeric.twoTo 31 := by
  have hsplit : Numeric.twoTo 32 = 2 * Numeric.twoTo 31 := rfl
  unfold twice
  rw [mod_twoTo_eq_iff, hsplit]
  omega

end Iteration

namespace TermMatch

/-- A number that is read is a word. -/
theorem word?_lt {digits : List Char} {n : ℕ} (h : word? digits = some n) :
    n < Numeric.twoTo 32 := by
  unfold word? at h
  obtain ⟨z, hz, rfl⟩ := Option.map_eq_some_iff.mp h
  obtain ⟨-, hfits⟩ := Option.filter_eq_some_iff.mp hz
  obtain ⟨hle, hlt⟩ := Bool.and_eq_true_iff.mp hfits
  have hle' : 0 ≤ z := of_decide_eq_true hle
  have hlt' : z < Int.ofNat (Numeric.twoTo 32) := of_decide_eq_true hlt
  exact (Int.toNat_lt hle').mpr hlt'

/-- The numbers of a term that is read are words. -/
theorem words_of_toTerm {source : String} {m : TermMatch} {t : RecursiveTerm}
    (h : m.toTerm source = .ok t) :
    t.coefficient < Numeric.twoTo 32 ∧ t.amount < Numeric.twoTo 32 := by
  have haccepted : ∀ {c a least : ℕ} {fault : RecurrenceFault},
      (if c = 0 ∨ a < least then Except.error fault else .ok ⟨c, m.kind, a⟩) = Except.ok t →
        t.coefficient = c ∧ t.amount = a := by
    intro c a least fault hok
    split at hok
    · cases hok
    · obtain rfl := Except.ok.inj hok
      exact ⟨rfl, rfl⟩
  unfold toTerm at h
  split at h
  · next c a hcoefficient hamount =>
      obtain ⟨hc, ha⟩ := haccepted h
      rw [hc, ha]
      refine ⟨?_, word?_lt hamount⟩
      split at hcoefficient
      · exact word?_lt hcoefficient
      · -- a coefficient that is left out is one
        obtain rfl := Option.some.inj hcoefficient
        decide
  · cases h

end TermMatch

namespace WrittenRecurrence

open RecursiveTerm (calls sumAt SumsFit totalCoefficient)

/-- The numbers of an accepted term fit their words. -/
theorem words_of_mem_writtenTerms {text : String} {found : List RecursiveTerm}
    (h : writtenTerms text = .ok found) {t : RecursiveTerm} (ht : t ∈ found) :
    t.coefficient < Numeric.twoTo 32 ∧ t.amount < Numeric.twoTo 32 := by
  obtain ⟨m, -, hm⟩ := exists_of_mem_mapM h ht
  exact TermMatch.words_of_toTerm hm

/-- **The arithmetic of a recurrence that is read is that of words.**  The
numbers that are written are words.  The merged coefficients, the number of
calls and twice the amount are the mathematical ones up to whole words, and each
is exact if and only if the mathematical one is a word itself. -/
theorem read_modulo_words {text : String} {w : WrittenRecurrence} (h : read text = .ok w) :
    ∃ found, writtenTerms text = .ok found ∧
      (∀ t ∈ found, t.coefficient < Numeric.twoTo 32 ∧ t.amount < Numeric.twoTo 32) ∧
      (∀ t ∈ w.terms, t.coefficient = sumAt t.size found % Numeric.twoTo 32) ∧
      totalCoefficient w.terms = calls found % Numeric.twoTo 32 ∧
      ((∀ t ∈ w.terms, t.coefficient = sumAt t.size found) ↔ SumsFit found) ∧
      (totalCoefficient w.terms = calls found ↔ calls found < Numeric.twoTo 32) ∧
      ∀ t ∈ w.terms, Iteration.twice t.amount = 2 * t.amount ↔ t.amount < Numeric.twoTo 31 := by
  obtain ⟨found, hfound, hterms, -⟩ := of_read h
  have hwords : ∀ t ∈ found, t.coefficient < Numeric.twoTo 32 ∧ t.amount < Numeric.twoTo 32 :=
    fun t ht => words_of_mem_writtenTerms hfound ht
  have hcoefficients : ∀ t ∈ found, t.coefficient < Numeric.twoTo 32 := fun t ht => (hwords t ht).1
  refine ⟨found, hfound, hwords, ?_, ?_, ?_, ?_, ?_⟩
  · rw [hterms]
    exact fun t ht => RecursiveTerm.coefficient_of_mem_foldl_merge hcoefficients ht
  · rw [hterms]
    exact RecursiveTerm.totalCoefficient_foldl_merge
  · rw [hterms]
    exact RecursiveTerm.coefficients_exact_iff hcoefficients
  · rw [hterms, RecursiveTerm.totalCoefficient_foldl_merge]
    exact mod_twoTo_eq_iff 32 (calls found)
  · intro t _
    exact Iteration.twice_exact_iff t.amount

/-- If terms are read, the text is read without a fault. -/
theorem exists_read_of_terms {text : String} {terms : List RecursiveTerm}
    (h : (read text).toOption.map WrittenRecurrence.terms = some terms) :
    ∃ w, read text = .ok w ∧ w.terms = terms := by
  obtain ⟨w, hw, hterms⟩ := Option.map_eq_some_iff.mp h
  exact ⟨w, eq_ok_of_toOption hw, hterms⟩

/-- A size that is written twice; nothing outgrows its word. -/
theorem read_modulo_words_repeated : ∃ w, read "T(n) = 2T(n-1) + n + 3T(n-1)" = .ok w ∧
    w.terms = [⟨5, .subtraction, 1⟩] ∧
    ∃ found, writtenTerms "T(n) = 2T(n-1) + n + 3T(n-1)" = .ok found ∧
      totalCoefficient w.terms = calls found % Numeric.twoTo 32 := by
  obtain ⟨w, hw, hterms⟩ : ∃ w, read "T(n) = 2T(n-1) + n + 3T(n-1)" = .ok w ∧
      w.terms = [⟨5, .subtraction, 1⟩] := exists_read_of_terms (by decide +kernel)
  obtain ⟨found, hfound, -, -, htotal, -⟩ := read_modulo_words hw
  exact ⟨w, hw, hterms, found, hfound, htotal⟩

/-- Each of the three places can lose the high bits: `2^32` calls of one size
become none, `2^32` calls of two sizes are counted as none, and `2^31` doubled
is zero. -/
theorem read_modulo_words_lost :
    (∃ w, read "T(n) = 4294967295T(n-1) + T(n-1)" = .ok w ∧ w.terms = [⟨0, .subtraction, 1⟩]) ∧
    (∃ w, read "T(n) = 4294967295T(n-1) + T(n-2)" = .ok w ∧
      calls w.terms = Numeric.twoTo 32 ∧ totalCoefficient w.terms = 0) ∧
    ∃ w, read "T(n) = T(n-2147483648) + 1" = .ok w ∧ w.terms = [⟨1, .subtraction, 2147483648⟩] ∧
      Iteration.twice 2147483648 = 0 := by
  refine ⟨exists_read_of_terms (by decide +kernel), ?_, ?_⟩
  · obtain ⟨w, hw, hterms⟩ : ∃ w, read "T(n) = 4294967295T(n-1) + T(n-2)" = .ok w ∧
        w.terms = [⟨4294967295, .subtraction, 1⟩, ⟨1, .subtraction, 2⟩] :=
      exists_read_of_terms (by decide +kernel)
    refine ⟨w, hw, ?_, ?_⟩
    · rw [hterms]
      rfl
    · rw [hterms]
      rfl
  · obtain ⟨w, hw, hterms⟩ : ∃ w, read "T(n) = T(n-2147483648) + 1" = .ok w ∧
        w.terms = [⟨1, .subtraction, 2147483648⟩] := exists_read_of_terms (by decide +kernel)
    exact ⟨w, hw, hterms, rfl⟩

end WrittenRecurrence

end CostAnalysis
