import CostAnalysis.Text.Lowercase
import Mathlib.Data.List.Basic

/-!
# Lower-case texts stay as they are

What is left after lower-casing has no second lower-case form: each of its
characters is its own (`isSmall_of_mem_lowercaseAfter`), and a text of such
characters is not changed (`lowercase_of_isSmall`).  So a text that was
lower-cased once may be lower-cased again by whoever reads it, which is how the
work of a recurrence is read.

**What has to be checked.**  Lower-casing is a table of runs of characters, each
with the distance to its image, and two characters with rules of their own.  The
table alone decides the statement: no character that some run leads to lies on a
run again.  For two runs that is a comparison of their ends, or of parities
where capitals and small letters alternate (`CaseRun.isApart`), and it is
computed for every pair of runs (`lowercaseRuns_apart`).
-/

namespace CostAnalysis.Text

/-! ## Runs

A run says which codes it holds and how far their images are.  Two runs are
compared by their ends alone, and by parities if both go in steps of two. -/

namespace CaseRun

/-- Whether the run holds the character with the given code. -/
def holds (r : CaseRun) (n : ℕ) : Bool :=
  r.first ≤ n && n ≤ r.last && (n - r.first) % r.step == 0

/-- The code that a character of the run is mapped to. -/
def target (r : CaseRun) (n : ℕ) : ℕ :=
  Int.toNat (Int.ofNat n + r.shift)

/-- Whether plainly no character that `r` leads to lies on `q`: their ranges do
not meet, or the characters alternate. -/
def isApart (r q : CaseRun) : Bool :=
  -- these tests on numbers are evaluated fast, and there are many pairs of runs
  Nat.blt (r.target r.last) q.first || Nat.blt q.last (r.target r.first) ||
    (Nat.beq q.step 2 && (Nat.beq r.step 2 || Nat.beq r.first r.last) &&
      Nat.beq ((r.target r.first + q.first) % 2) 1)

/-- Where two runs are apart no image of the one lies on the other. -/
theorem not_holds_target {r q : CaseRun} (h : r.isApart q = true) {n : ℕ} (hn : r.holds n = true)
    (hfirst : 0x5b ≤ r.target r.first) : q.holds (r.target n) = false := by
  simp only [holds, Bool.and_eq_true, decide_eq_true_eq, beq_iff_eq] at hn
  obtain ⟨⟨hlow, hhigh⟩, hstep⟩ := hn
  simp only [isApart, Bool.or_eq_true, Bool.and_eq_true, Nat.blt_eq, Nat.beq_eq] at h
  rw [Bool.eq_false_iff]
  intro hheld
  simp only [holds, Bool.and_eq_true, decide_eq_true_eq, beq_iff_eq] at hheld
  obtain ⟨⟨hlow', hhigh'⟩, hstep'⟩ := hheld
  simp only [target, Int.ofNat_eq_natCast] at *
  rcases h with (hbelow | habove) | ⟨⟨htwo, halternate⟩, hodd⟩
  · omega
  · omega
  · rw [htwo] at hstep'
    rcases halternate with halternate | hsingle
    · rw [halternate] at hstep
      omega
    · omega

end CaseRun

/-- The two characters with rules of their own, as runs: the dotted capital and
the sigma. -/
def specialRuns : List CaseRun :=
  [⟨0x130, 0x130, 1, 0⟩, ⟨0x3a3, 0x3a3, 1, 0⟩]

/-- No run leads to a capital letter. -/
theorem lowercaseRuns_apart :
    (lowercaseRuns.all fun r => Nat.ble 0x5b (r.target r.first) &&
      (specialRuns ++ lowercaseRuns).all r.isApart) = true := by
  decide +kernel

/-- What a run leads to is neither a capital letter of ASCII nor on a run. -/
theorem not_holds_of_mem {r : CaseRun} (hr : r ∈ lowercaseRuns) {n : ℕ} (hn : r.holds n = true) :
    0x5b ≤ r.target n ∧ ∀ q ∈ specialRuns ++ lowercaseRuns, q.holds (r.target n) = false := by
  have hall := List.all_eq_true.mp lowercaseRuns_apart r hr
  rw [Bool.and_eq_true, List.all_eq_true] at hall
  have hfirst : 0x5b ≤ r.target r.first := Nat.le_of_ble_eq_true hall.1
  have hlow : r.first ≤ n := by
    simp only [CaseRun.holds, Bool.and_eq_true, decide_eq_true_eq] at hn
    exact hn.1.1
  refine ⟨?_, fun q hq => CaseRun.not_holds_target (hall.2 q hq) hn hfirst⟩
  simp only [CaseRun.target, Int.ofNat_eq_natCast] at hfirst ⊢
  omega

/-! ## Characters -/

/-- A valid code is the code of its character. -/
theorem toNat_ofNat_of_isValidChar {n : ℕ} (h : n.isValidChar) : (Char.ofNat n).toNat = n := by
  rw [Char.ofNat, dif_pos h]
  rfl

/-- The character is its own lower-case form. -/
def IsSmall (c : Char) : Prop :=
  lowerChar c = [c] ∧ c ≠ 'Σ'

/-- A character beyond the capital letters of ASCII that lies on no run is its
own lower-case form. -/
theorem isSmall_of_not_holds {c : Char} (hascii : 0x5b ≤ c.toNat)
    (h : ∀ q ∈ specialRuns ++ lowercaseRuns, q.holds c.toNat = false) : IsSmall c := by
  have hcapital : ¬('A' ≤ c ∧ c ≤ 'Z') := fun hc => by
    have hle : c.toNat ≤ 0x5a := hc.2
    omega
  have hspecial : ∀ q ∈ specialRuns, q.holds c.toNat = false := fun q hq =>
    h q (List.mem_append_left _ hq)
  simp only [specialRuns, List.forall_mem_cons, List.not_mem_nil, false_imp_iff, implies_true,
    and_true] at hspecial
  have hdotted : c ≠ 'İ' := by
    rintro rfl
    exact absurd hspecial.1 (by decide)
  have hsigma : c ≠ 'Σ' := by
    rintro rfl
    exact absurd hspecial.2 (by decide)
  refine ⟨?_, hsigma⟩
  -- no run of the table applies, so the character is its own small letter
  have hfind : lowercaseRuns.find? (fun run =>
      run.first ≤ c.toNat && c.toNat ≤ run.last && (c.toNat - run.first) % run.step == 0) =
      none := by
    refine List.find?_eq_none.mpr fun q hq => ?_
    have hq' := h q (List.mem_append_right _ hq)
    rw [CaseRun.holds] at hq'
    rw [hq']
    decide
  rw [lowerChar]
  split
  · rw [if_neg (by simpa using hcapital)]
  · rw [if_neg (by simpa using hdotted), hfind]

/-- A character of ASCII beyond the capital letters is its own lower-case
form. -/
theorem isSmall_of_isAscii {c : Char} (hlow : 0x5b ≤ c.toNat) (hhigh : c.toNat < 0x80) :
    IsSmall c := by
  have hcapital : ¬('A' ≤ c ∧ c ≤ 'Z') := fun hc => by
    have hle : c.toNat ≤ 0x5a := hc.2
    omega
  refine ⟨?_, ?_⟩
  · have hascii : isAscii c = true := decide_eq_true hhigh
    rw [lowerChar, if_pos hascii, if_neg (by simpa using hcapital)]
  · rintro rfl
    exact absurd hhigh (by decide)

/-- The lower-case form of a character consists of characters that are their
own. -/
theorem isSmall_of_mem_lowerChar {c d : Char} (hd : d ∈ lowerChar c) : IsSmall d := by
  -- a character that is left as it is, is no sigma, since that one has another
  -- form
  have hself : lowerChar c = [c] → IsSmall d := by
    intro hc
    rw [hc, List.mem_singleton] at hd
    rw [hd]
    refine ⟨hc, ?_⟩
    rintro rfl
    exact absurd hc (by decide)
  rw [lowerChar] at hd hself
  split at hd
  · next hascii =>
      rw [if_pos hascii] at hself
      split at hd
      · next hcapital =>
          simp only [Bool.and_eq_true, decide_eq_true_eq] at hcapital
          have hlow : 0x41 ≤ c.toNat := hcapital.1
          have hhigh : c.toNat ≤ 0x5a := hcapital.2
          rw [List.mem_singleton] at hd
          have hcode : d.toNat = c.toNat + 32 := by
            rw [hd, toNat_ofNat_of_isValidChar (Or.inl (by omega))]
          exact isSmall_of_isAscii (by omega) (by omega)
      · next hcapital =>
          rw [if_neg hcapital] at hself
          exact hself rfl
  · next hascii =>
      rw [if_neg hascii] at hself
      split at hd
      · rcases List.mem_pair.mp hd with rfl | rfl
        · exact ⟨by decide, by decide⟩
        · exact ⟨by decide, by decide⟩
      · next hdotted =>
          rw [if_neg hdotted] at hself
          split at hd
          · next run hfind =>
              have hheld := List.find?_some hfind
              obtain ⟨hlow, hapart⟩ := not_holds_of_mem (List.mem_of_find?_eq_some hfind) hheld
              rw [List.mem_singleton] at hd
              by_cases hvalid : (run.target c.toNat).isValidChar
              · have hcode : d.toNat = run.target c.toNat := by
                  rw [hd]
                  exact toNat_ofNat_of_isValidChar hvalid
                rw [← hcode] at hlow hapart
                exact isSmall_of_not_holds hlow hapart
              · -- a code that no character has becomes the character zero
                have hzero : d = '\x00' := by
                  rw [CaseRun.target] at hvalid
                  rw [hd, Char.ofNat, dif_neg hvalid]
                  rfl
                rw [hzero]
                exact ⟨by decide, by decide⟩
          · next hfind =>
              rw [hfind] at hself
              exact hself rfl

/-! ## Texts -/

/-- **What is left is its own lower-case form**, character by character; the
sigma depends on what comes before, and both of its forms are small. -/
theorem isSmall_of_mem_lowercaseAfter {text before : List Char} {d : Char}
    (hd : d ∈ lowercaseAfter before text) : IsSmall d := by
  induction text generalizing before with
  | nil => cases hd
  | cons c rest ih =>
      rw [lowercaseAfter] at hd
      rcases List.mem_append.mp hd with hd | hd
      · split at hd
        · split at hd
          · rw [List.mem_singleton.mp hd]
            exact ⟨by decide, by decide⟩
          · rw [List.mem_singleton.mp hd]
            exact ⟨by decide, by decide⟩
        · exact isSmall_of_mem_lowerChar hd
      · exact ih hd

/-- A text of such characters is its own lower-case form. -/
theorem lowercase_of_isSmall {text : List Char} (h : ∀ c ∈ text, IsSmall c) :
    lowercase text = text := by
  have hafter : ∀ before, lowercaseAfter before text = text := by
    induction text with
    | nil => exact fun before => rfl
    | cons c rest ih =>
        intro before
        obtain ⟨hlower, hsigma⟩ := h c List.mem_cons_self
        rw [lowercaseAfter, if_neg (by simpa using hsigma), hlower,
          ih (fun d hd => h d (List.mem_cons_of_mem _ hd)), List.singleton_append]
  exact hafter []

/-- Without a sigma each character is lower-cased on its own. -/
theorem lowercase_eq_flatMap {text : List Char} (h : 'Σ' ∉ text) :
    lowercase text = text.flatMap lowerChar := by
  have hafter : ∀ before, lowercaseAfter before text = text.flatMap lowerChar := by
    induction text with
    | nil => exact fun before => rfl
    | cons c rest ih =>
        intro before
        rw [List.mem_cons, not_or] at h
        rw [lowercaseAfter, if_neg (by simpa using Ne.symm h.1), ih h.2, List.flatMap_cons]
  exact hafter []

end CostAnalysis.Text
