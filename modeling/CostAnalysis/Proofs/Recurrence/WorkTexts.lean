import CostAnalysis.Proofs.Formula.RoundTrip
import CostAnalysis.Proofs.Growth
import CostAnalysis.Proofs.Recurrence.Addends
import Mathlib.Data.List.Chain

/-!
# Works are read back from their texts

The text of a work is the name of its class, such as `n^(3/2) log n`.  A name
leaves products and the parentheses of a logarithm out, and the reader has to
put them back before it can read a formula.

**Notation.**  Putting back is done by searching for a few patterns.  None of
them occurs in a power of the size, as all the digits there are kept `Apart`
from letters (`explicit_power`); behind a power, a logarithm becomes a factor
(`explicit_power_log`).

**Reading.**  What results spells the formula that the class is made from
(`readsSum_classChars`), the closed form of this formula is a single term, and
its class is the class that was named (`read_classChars`).

**Why two texts.**  The name is written with blanks (`classText`), and the
reader takes them out at once.  All that follows is about the name without them
(`classChars`), and about the few characters that occur in it (`powerChars`):
whatever is searched for begins with a character that does not.
-/

namespace CostAnalysis

open Text

/-! ## Digits -/

/-- The digits, as a list that can be gone through. -/
theorem mem_of_isAsciiDigit {c : Char} (h : isAsciiDigit c = true) :
    c ∈ "0123456789".toList := by
  have hall : ∀ k < 10, Char.ofNat (48 + k) ∈ "0123456789".toList := by decide
  obtain ⟨hlow, hhigh⟩ := Formula.isAsciiDigit_iff.mp h
  have hmem := hall (c.toNat - 48) (by omega)
  rwa [Nat.add_sub_cancel' hlow, Char.ofNat_toNat] at hmem

theorem mem_of_mem_toDigits {k : ℕ} {c : Char} (hc : c ∈ Nat.toDigits 10 k) :
    c ∈ "0123456789".toList :=
  mem_of_isAsciiDigit (Formula.isAsciiDigit_of_mem_toDigits k hc)

/-! ## Notation

The patterns are applied to every text that might be a work.  In a power they
find nothing, as no digit of it has a letter or a parenthesis behind it, and
behind a power they find the logarithm alone. -/

namespace Work

/-- No letter and no opening parenthesis stands right behind a digit. -/
def Apart (a b : Char) : Prop :=
  isDecimalDigit a = true → isSmallLetter b = false ∧ b ≠ '('

instance (a b : Char) : Decidable (Apart a b) :=
  inferInstanceAs (Decidable (_ → _))

/-- Where letters are kept apart from digits, no number stands before a
factor. -/
theorem numberBeforeFactor_of_isChain {text : List Char} (h : text.IsChain Apart) :
    numberBeforeFactor text = none := by
  have htext := List.takeWhile_append_dropWhile (p := isDecimalDigit) (l := text)
  rw [numberBeforeFactor]
  split
  · next d ds c more hdigits hmore =>
      rw [hdigits, hmore] at htext
      have hlast : ∀ c ∈ d :: ds, isDecimalDigit c = true := by
        intro c hc
        rw [← hdigits] at hc
        exact List.mem_takeWhile_imp hc
      rw [← htext, List.isChain_append] at h
      have hapart := h.2.2 _ (List.getLast?_eq_some_getLast (List.cons_ne_nil d ds)) c rfl
        (hlast _ (List.getLast_mem _))
      simp [hapart]
  · rfl

/-- What has no letter and no opening parenthesis keeps all its digits apart. -/
theorem isChain_cons_of_forall {a : Char} {text : List Char}
    (h : ∀ b ∈ text, isSmallLetter b = false ∧ b ≠ '(') : (a :: text).IsChain Apart := by
  induction text generalizing a with
  | nil => exact .singleton a
  | cons b text ih =>
      obtain ⟨hb, htext⟩ := List.forall_mem_cons.mp h
      exact List.isChain_cons_cons.mpr ⟨fun _ => hb, ih htext⟩

/-- A text in which numbers and factors are kept apart is written out
already. -/
theorem replace_coefficientBeforeFactor {text : List Char} (h : text.IsChain Apart)
    (write : List Char × List Char × Char → List Char) :
    replace coefficientBeforeFactor write text = text := by
  refine (replace_of_scan_eq_map (scan_of_none fun before part hpart hne => ?_)).2
  obtain ⟨c, part, rfl⟩ := List.exists_cons_of_ne_nil hne
  have hchain : (c :: part).IsChain Apart := h.suffix hpart
  have hfirst := numberBeforeFactor_of_isChain hchain
  have hsecond := numberBeforeFactor_of_isChain (hchain.suffix (List.suffix_cons c part))
  cases before <;> simp [coefficientBeforeFactor, hfirst, hsecond]

/-- A text begins with nothing that has another first character. -/
theorem afterStart_of_head?_ne {c : Char} {start text : List Char} (h : text.head? ≠ some c) :
    afterStart (c :: start) text = none := by
  cases text with
  | nil => rfl
  | cons d text =>
      have hc : c ≠ d := by
        rintro rfl
        exact h rfl
      simp [afterStart, hc]

/-- The characters in the text of a power of the size. -/
def powerChars : List Char :=
  "0123456789n^(/)".toList

/-- No logarithm begins in a power. -/
theorem head?_ne_log {text : List Char} (rest : List Char) (h : ∀ c ∈ text, c ∈ powerChars)
    (hne : text ≠ []) :
    (text ++ rest).head? ≠ some 'l' := by
  obtain ⟨c, text, rfl⟩ := List.exists_cons_of_ne_nil hne
  rw [List.cons_append, List.head?_cons, Ne, Option.some.injEq]
  rintro rfl
  exact absurd (h 'l' List.mem_cons_self) (by decide)

/-- A power has no logarithm in it, with or without parentheses. -/
theorem replace_of_powerChars {text : List Char} (h : ∀ c ∈ text, c ∈ powerChars) :
    replace bareLog (fun c => ['l', 'o', 'g', '(', c, ')']) text = text ∧
      replace factorBeforeLog (fun c => [c, '*', 'l', 'o', 'g', '(']) text = text := by
  have habsent : ∀ c ∈ text, (c == 'l') = false := by
    have hall : ∀ c ∈ powerChars, (c == 'l') = false := by decide
    exact fun c hc => hall c (h c hc)
  constructor
  · refine (replace_of_scan_eq_map (scan_of_absent ?_ habsent)).2
    exact takes_bareLog.mono fun c taken htaken => ⟨'l', by simp [htaken], rfl⟩
  · refine (replace_of_scan_eq_map (scan_of_absent ?_ habsent)).2
    exact takes_factorBeforeLog.mono fun c taken htaken => ⟨'l', by simp [htaken], rfl⟩

/-- The text of a power of the size: `n`, `n^2`, `n^(1/2)`. -/
inductive IsPower : List Char → Prop
  | size : IsPower ['n']
  | whole (k : ℕ) : IsPower ('n' :: '^' :: Nat.toDigits 10 k)
  | fraction (p q : ℕ) :
      IsPower ('n' :: '^' :: '(' :: (Nat.toDigits 10 p ++ '/' :: (Nat.toDigits 10 q ++ [')'])))

namespace IsPower

variable {text : List Char} (h : IsPower text)
include h

/-- A power is written in its few characters. -/
theorem mem_powerChars : ∀ c ∈ text, c ∈ powerChars := by
  have hdigits : ∀ k, ∀ c ∈ Nat.toDigits 10 k, c ∈ powerChars := fun k c hc =>
    List.mem_append_left _ (mem_of_mem_toDigits hc)
  cases h with
  | size => decide
  | whole k =>
      simp only [List.forall_mem_cons]
      exact ⟨by decide, by decide, hdigits k⟩
  | fraction p q =>
      simp only [List.forall_mem_cons, List.forall_mem_append]
      exact ⟨by decide, by decide, by decide, hdigits p, by decide, hdigits q, by decide⟩

/-- In a power letters and opening parentheses are kept apart from digits. -/
theorem isChain : text.IsChain Apart := by
  have hdigits : ∀ k, ∀ c ∈ Nat.toDigits 10 k, isSmallLetter c = false ∧ c ≠ '(' := by
    have hall : ∀ c ∈ "0123456789".toList, isSmallLetter c = false ∧ c ≠ '(' := by decide
    exact fun k c hc => hall c (mem_of_mem_toDigits hc)
  cases h with
  | size => exact .singleton _
  | whole k => exact List.isChain_cons_cons.mpr ⟨by decide, isChain_cons_of_forall (hdigits k)⟩
  | fraction p q =>
      refine List.isChain_cons_cons.mpr ⟨by decide, List.isChain_cons_cons.mpr ⟨by decide, ?_⟩⟩
      refine isChain_cons_of_forall ?_
      simp only [List.forall_mem_cons, List.forall_mem_append]
      exact ⟨hdigits p, by decide, hdigits q, by decide⟩

/-- A power ends with a letter, a digit or a closing parenthesis, which may
stand before a factor.
-/
theorem exists_last : ∃ front c, text = front ++ [c] ∧
    (isSmallLetter c || isAsciiDigit c || c == ')') = true := by
  cases h with
  | size => exact ⟨[], 'n', rfl, by decide⟩
  | whole k =>
      have hne : Nat.toDigits 10 k ≠ [] := Nat.toDigits_ne_nil
      have hdigit := Formula.isAsciiDigit_of_mem_toDigits k (List.getLast_mem hne)
      refine ⟨'n' :: '^' :: (Nat.toDigits 10 k).dropLast, (Nat.toDigits 10 k).getLast hne, ?_, ?_⟩
      · rw [List.cons_append, List.cons_append, List.dropLast_append_getLast]
      · have hdigit' : isAsciiDigit ((Nat.toDigits 10 k).getLast hne) = true := hdigit
        simp [hdigit']
  | fraction p q =>
      exact ⟨'n' :: '^' :: '(' :: (Nat.toDigits 10 p ++ '/' :: Nat.toDigits 10 q), ')', by simp,
        by decide⟩

end IsPower

/-- The name of a power whose degree is not negative is such a text. -/
theorem isPower_powerText {d : ℚ} (hd : 0 ≤ d) :
    IsPower (Growth.powerText "n" (.exact d)).toList := by
  obtain ⟨p, hp⟩ := Int.eq_ofNat_of_zero_le (Rat.num_nonneg.mpr hd)
  have hsign : (Scalar.exact d).isNegative = false := by
    simp [Scalar.isNegative, Scalar.numer, hp]
  have hnum : toString d.num = toString p := by rw [hp]; rfl
  rw [Growth.powerText, hsign]
  split
  · exact .size
  · by_cases hden : d.den = 1
    · have hint : (Scalar.exact d).isInteger = true := by
        simp [Scalar.isInteger, Scalar.denom, hden]
      rw [hint, Scalar.text, if_pos hden, hnum]
      simpa using IsPower.whole p
    · have hint : (Scalar.exact d).isInteger = false := by
        simp [Scalar.isInteger, Scalar.denom, hden]
      rw [hint, Scalar.text, if_neg hden, hnum]
      simpa [parenthesized] using IsPower.fraction p d.den

/-- A power alone is written out already. -/
theorem explicit_power {text : List Char} (h : ∀ c ∈ text, c ∈ powerChars)
    (hapart : text.IsChain Apart) : explicit text = text := by
  obtain ⟨hlog, hfactor⟩ := replace_of_powerChars h
  rw [explicit, hlog, hfactor, replace_coefficientBeforeFactor hapart]

/-- A bare logarithm behind a power gets its parentheses. -/
theorem replace_bareLog {front : List Char} (h : ∀ c ∈ front, c ∈ powerChars) :
    replace bareLog (fun c => ['l', 'o', 'g', '(', c, ')']) (front ++ "logn".toList) =
      front ++ "log(n)".toList := by
  refine replace_append_of_none (fun before part hpart hne => ?_) fun before => rfl
  have hhead := head?_ne_log "logn".toList (fun c hc => h c (hpart.subset hc)) hne
  rw [bareLog, afterStart_of_head?_ne hhead]

/-- A logarithm behind a power becomes a factor. -/
theorem replace_factorBeforeLog {front : List Char} {c : Char}
    (h : ∀ d ∈ front ++ [c], d ∈ powerChars)
    (hc : (isSmallLetter c || isAsciiDigit c || c == ')') = true) :
    replace factorBeforeLog (fun c => [c, '*', 'l', 'o', 'g', '('])
      (front ++ [c] ++ "log(n)".toList) = front ++ [c] ++ "*log(n)".toList := by
  rw [List.append_assoc, List.append_assoc]
  refine replace_append_of_none (fun before part hpart hne => ?_) fun before => ?_
  · -- the sign behind the first one of the part is one of a power, too
    obtain ⟨d, part, rfl⟩ := List.exists_cons_of_ne_nil hne
    have hsubset : part ⊆ front := fun e he => hpart.subset (List.mem_cons_of_mem d he)
    have hchars : ∀ e ∈ part ++ [c], e ∈ powerChars := fun e he =>
      h e (List.mem_append.mpr ((List.mem_append.mp he).imp_left fun he => hsubset he))
    have hhead := head?_ne_log "log(n)".toList hchars (by simp)
    rw [List.append_assoc] at hhead
    have hafter : afterStart ['l', 'o', 'g', '('] (part ++ ([c] ++ "log(n)".toList)) = none :=
      afterStart_of_head?_ne hhead
    rw [List.cons_append, factorBeforeLog]
    simp only [hafter, Option.isSome_none, Bool.and_false]
    rfl
  · have hmatch : factorBeforeLog before (c :: "log(n)".toList) = some (c, 5) := by
      simp [factorBeforeLog, hc, afterStart]
    rw [List.singleton_append, scanFrom, hmatch]
    rfl

/-- A power before a logarithm is written out as a product. -/
theorem explicit_power_log {front : List Char} {c : Char} (h : ∀ d ∈ front ++ [c], d ∈ powerChars)
    (hc : (isSmallLetter c || isAsciiDigit c || c == ')') = true)
    (hapart : (front ++ [c]).IsChain Apart) :
    explicit (front ++ [c] ++ "logn".toList) = front ++ [c] ++ "*log(n)".toList := by
  have hproduct : (front ++ [c] ++ "*log(n)".toList).IsChain Apart := by
    refine List.isChain_append.mpr ⟨hapart, by decide, ?_⟩
    rintro a - b ⟨⟩ -
    decide
  rw [explicit, replace_bareLog h, replace_factorBeforeLog h hc,
    replace_coefficientBeforeFactor hproduct]

/-! ## Reading

There are four shapes of a name, by whether the degree and the logarithm are
there.  Each is a product of two parts at most, and each part is read by a lemma
about texts of formulas. -/

/-- The exponent of a power is written like an operand of a formula. -/
theorem powerText_eq (v : String) (s : Scalar) : Growth.powerText v s =
    if s.isOne then v else v ++ "^" ++ Formula.operandText (.num s) 4 s.text := by
  rw [Growth.powerText, Formula.operandText, Formula.precedence]
  cases s.isNegative <;> cases s.isInteger <;> rfl

theorem isName_size : Formula.IsName "n".toList :=
  ⟨'n', [], rfl, by decide, by decide⟩

/-- The name of a power is read as the power. -/
theorem readsPower_powerText {s : Scalar} (hs : s.Fits) :
    Formula.ReadsPower (Growth.powerText "n" s).toList ((Formula.var "n").pow (.num s)) := by
  have hsize := Formula.readsAtom_var isName_size
  rw [powerText_eq]
  split
  · next hone =>
      have hpow : (Formula.var "n").pow (.num s) = .var "n" := if_pos hone
      rw [hpow]
      exact hsize.readsPower
  · have hexponent : Formula.ReadsAtom (Formula.operandText (.num s) 4 s.text).toList (.num s) :=
      (Formula.readsAt_num hs).operand le_rfl
    simpa using hsize.caret hexponent.readsPower

theorem readsAtom_log : Formula.ReadsAtom "log(n)".toList (Formula.var "n").log :=
  (Formula.readsAtom_var isName_size).readsPower.readsProduct.readsSum.call
    ⟨'l', ['o', 'g'], rfl, by decide, by decide⟩ Formula.isBlanks_nil rfl

/-- A text that begins like the text of a class is read as a formula or kept. -/
theorem read_eq_of_head {text : String} {cs : List Char} {c : Char}
    (htext : compactForm text.toList = c :: cs) (hc : c = '1' ∨ c = 'n' ∨ c = 'l') :
    read text = match Formula.ofChars? (explicit (c :: cs)) with
      | some e => ofFormula (String.ofList (c :: cs)) e
      | none => verbatim (String.ofList (c :: cs)) := by
  have hbound : insideBound? (c :: cs) = none := by
    refine Option.eq_none_iff_forall_ne_some.mpr fun inner hinner => ?_
    obtain ⟨opening, hopening, heq⟩ := exists_of_insideBound? hinner
    have hhead : ∀ opening ∈ boundOpenings, opening ≠ [] ∧ opening.head? ≠ some '1' ∧
        opening.head? ≠ some 'n' ∧ opening.head? ≠ some 'l' := by
      decide
    obtain ⟨hne, hone, hsize, hlog⟩ := hhead opening hopening
    obtain ⟨d, opening, rfl⟩ := List.exists_cons_of_ne_nil hne
    obtain rfl : c = d := (List.cons.inj heq).1
    rcases hc with rfl | rfl | rfl
    · exact hone rfl
    · exact hsize rfl
    · exact hlog rfl
  -- nor is the text one of the few that have a reading of their own
  have hname : ∀ name : String, name.toList.head? ≠ some c →
      (String.ofList (c :: cs) == name) = false := by
    intro name hname
    rw [beq_eq_false_iff_ne]
    rintro rfl
    exact hname (by rw [String.toList_ofList]; rfl)
  rw [read, htext]
  have hempty := hname "" (by simp)
  have hzero := hname "0" (by simpa using by rintro rfl; simp at hc)
  have hconstant := hname "c" (by simpa using by rintro rfl; simp at hc)
  have hk := hname "k" (by simpa using by rintro rfl; simp at hc)
  cases hread : Formula.ofChars? (explicit (c :: cs)) <;>
    simp only [List.length_cons, stripBounds, hbound, hempty, hzero, hconstant, hk, hread,
      Bool.or_self, Bool.false_eq_true, if_false]

/-- **How a class is recognized**: a name that begins with none of the openings
of bounds is read as it is, and what it spells when it is written out is the
formula of the work. -/
theorem read_of_readsSum {text : String} {cs : List Char} {c : Char} {e : Formula}
    (htext : compactForm text.toList = c :: cs) (hc : c = '1' ∨ c = 'n' ∨ c = 'l')
    (h : Formula.ReadsSum (explicit (c :: cs)) e) :
    read text = ofFormula (String.ofList (c :: cs)) e := by
  have hread : Formula.ofChars? (explicit (c :: cs)) = some e := by
    have htext : (String.ofList (explicit (c :: cs))).toList = explicit (c :: cs) :=
      String.toList_ofList
    have hwhole := (htext ▸ h : Formula.ReadsSum _ e).read?_eq
    rwa [Formula.read?, htext] at hwhole
  rw [read_eq_of_head htext hc, hread]

/-- The text of a class. -/
def classText (d : ℚ) (l : ℕ) : List Char :=
  (Growth.polylog "n" (.exact d) (.ofNat l)).text.toList

/-- The text of a class, without blanks. -/
def classChars (d : ℚ) (l : ℕ) : List Char :=
  (classText d l).filter fun c => !isBlank c

theorem classText_zero_zero : classText 0 0 = ['1'] := by decide

theorem classText_zero_one : classText 0 1 = "log n".toList := by decide

/-- There are no blanks in a power. -/
theorem filter_of_powerChars {text : List Char} (h : ∀ c ∈ text, c ∈ powerChars) :
    text.filter (fun c => !isBlank c) = text := by
  have hall : ∀ c ∈ powerChars, (!isBlank c) = true := by decide
  exact List.filter_eq_self.mpr fun c hc => hall c (h c hc)

section Powers

variable {d : ℚ} (hd : 0 < d)
include hd

/-- A power alone. -/
theorem classText_power : classText d 0 = (Growth.powerText "n" (.exact d)).toList := by
  rw [classText, Growth.polylog_eq, Growth.powers_of_ne (Scalar.isZero_exact_of_ne hd.ne')]
  rfl

/-- A power times the logarithm. -/
theorem classText_power_log :
    classText d 1 = (Growth.powerText "n" (.exact d)).toList ++ " log n".toList := by
  have htext : (Growth.polylog "n" (.exact d) (.ofNat 1)).text =
      Growth.powerText "n" (.exact d) ++ " " ++ "log n" := by
    rw [Growth.polylog_eq, Growth.powers_of_ne (Scalar.isZero_exact_of_ne hd.ne'),
      Growth.powers_of_ne rfl]
    rfl
  rw [classText, htext, String.toList_append, String.toList_append, List.append_assoc]
  rfl

theorem filter_powerText : (Growth.powerText "n" (.exact d)).toList.filter (fun c => !isBlank c) =
    (Growth.powerText "n" (.exact d)).toList :=
  filter_of_powerChars (isPower_powerText hd.le).mem_powerChars

theorem classChars_power : classChars d 0 = (Growth.powerText "n" (.exact d)).toList := by
  rw [classChars, classText_power hd, filter_powerText hd]

theorem classChars_power_log :
    classChars d 1 = (Growth.powerText "n" (.exact d)).toList ++ "logn".toList := by
  have hlog : " log n".toList.filter (fun c => !isBlank c) = "logn".toList := by decide
  rw [classChars, classText_power_log hd, List.filter_append, filter_powerText hd, hlog]

end Powers

theorem classChars_zero_zero : classChars 0 0 = ['1'] := by decide

theorem classChars_zero_one : classChars 0 1 = "logn".toList := by decide

variable {d : ℚ} {l : ℕ}

/-- The text of a class, without blanks, spells the formula of the class. -/
theorem readsSum_classChars (hd : 0 ≤ d) (hfits : (Scalar.exact d).Fits) (hl : l ≤ 1) :
    Formula.ReadsSum (explicit (classChars d l)) (Formula.polylog "n" (.exact d) (.ofNat l)) := by
  -- by the two exponents that a name leaves out
  obtain rfl | rfl : l = 0 ∨ l = 1 := by omega
  · rcases hd.eq_or_lt with rfl | hd
    · have hone : Formula.ReadsAtom ['1'] Formula.one :=
        Formula.readsAtom_nat (n := 1) (by decide)
      have hexplicit : explicit ['1'] = ['1'] := by decide
      rw [classChars_zero_zero, hexplicit]
      exact hone.readsPower.readsProduct.readsSum
    · have hpower := isPower_powerText hd.le
      rw [classChars_power hd, explicit_power hpower.mem_powerChars hpower.isChain,
        Formula.polylog_power "n" hd.ne']
      exact (readsPower_powerText hfits).readsProduct.readsSum
  · rcases hd.eq_or_lt with rfl | hd
    · have hexplicit : explicit "logn".toList = "log(n)".toList := by decide
      rw [classChars_zero_one, hexplicit, Formula.polylog_log]
      exact readsAtom_log.readsPower.readsProduct.readsSum
    · have hpower := isPower_powerText hd.le
      obtain ⟨front, c, htext, hc⟩ := hpower.exists_last
      have hread := (readsPower_powerText hfits).readsProduct.mul readsAtom_log.readsPower
      rw [classChars_power_log hd, Formula.polylog_power_log "n" hd.ne']
      rw [htext] at hpower hread ⊢
      rw [explicit_power_log hpower.mem_powerChars hc hpower.isChain]
      exact hread.readsSum

/-- The name of a class begins with `1`, with the size or with the logarithm,
and so with no bound.
-/
theorem exists_classChars (hd : 0 ≤ d) (hl : l ≤ 1) :
    ∃ c cs, classChars d l = c :: cs ∧ (c = '1' ∨ c = 'n' ∨ c = 'l') := by
  have hsize : 0 < d → ∃ cs, (Growth.powerText "n" (.exact d)).toList = 'n' :: cs := by
    intro hd
    have hpower := isPower_powerText hd.le
    generalize (Growth.powerText "n" (.exact d)).toList = text at hpower
    cases hpower <;> exact ⟨_, rfl⟩
  obtain rfl | rfl : l = 0 ∨ l = 1 := by omega
  · rcases hd.eq_or_lt with rfl | hd
    · exact ⟨'1', [], classChars_zero_zero, by simp⟩
    · obtain ⟨cs, htext⟩ := hsize hd
      exact ⟨'n', cs, by rw [classChars_power hd, htext], by simp⟩
  · rcases hd.eq_or_lt with rfl | hd
    · exact ⟨'l', ['o', 'g', 'n'], classChars_zero_one, by simp⟩
    · obtain ⟨cs, htext⟩ := hsize hd
      exact ⟨'n', _, by rw [classChars_power_log hd, htext, List.cons_append], by simp⟩

/-- What is left of a text of blanks and of characters in a list, without the
blanks, is in the list. -/
theorem mem_of_mem_filter {text chars : List Char} (h : ∀ c ∈ text, c = ' ' ∨ c ∈ chars) :
    ∀ c ∈ text.filter fun c => !isBlank c, c ∈ chars := by
  intro c hc
  obtain ⟨hc, hblank⟩ := List.mem_filter.mp hc
  refine (h c hc).resolve_left ?_
  rintro rfl
  exact absurd hblank (by decide)

/-- The name of a class is written in the characters of powers, blanks and the
letters of the logarithm. -/
theorem mem_classText (hd : 0 ≤ d) (hl : l ≤ 1) :
    ∀ c ∈ classText d l, c = ' ' ∨ c ∈ powerChars ++ ['l', 'o', 'g'] := by
  have hpower : ∀ c ∈ (Growth.powerText "n" (.exact d)).toList,
      c = ' ' ∨ c ∈ powerChars ++ ['l', 'o', 'g'] := fun c hc =>
    Or.inr (List.mem_append_left _ ((isPower_powerText hd).mem_powerChars c hc))
  obtain rfl | rfl : l = 0 ∨ l = 1 := by omega
  · rcases hd.eq_or_lt with rfl | hd
    · rw [classText_zero_zero]
      decide
    · rwa [classText_power hd]
  · rcases hd.eq_or_lt with rfl | hd
    · rw [classText_zero_one]
      decide
    · rw [classText_power_log hd, List.forall_mem_append]
      exact ⟨hpower, by decide⟩

theorem mem_classChars (hd : 0 ≤ d) (hl : l ≤ 1) :
    ∀ c ∈ classChars d l, c ∈ powerChars ++ ['l', 'o', 'g'] :=
  mem_of_mem_filter (mem_classText hd hl)

/-- The work of a class, with each field spelled out. -/
theorem ofGrowth_polylog {s t : Scalar} (hs : s.Fits) (ht : t.Fits) :
    ofGrowth (Growth.polylog "n" s t) =
      { text := (Growth.polylog "n" s t).text, growth := Growth.polylog "n" s t,
        formula? := some (Formula.polylog "n" s t), known := true } := by
  have hverbatim : (Growth.polylog "n" s t).verbatim = none := rfl
  rw [ofGrowth, hverbatim]
  simp only [Growth.degree_polylog hs, Growth.logCount_polylog ht]
  rfl

/-- Of the name of a class the compact form leaves the blanks out. -/
theorem compactForm_of_name {text : List Char}
    (h : ∀ c ∈ text, c = ' ' ∨ c ∈ powerChars ++ ['l', 'o', 'g']) :
    compactForm text = text.filter fun c => !isBlank c := by
  have hall : ∀ c ∈ powerChars ++ ['l', 'o', 'g'],
      (lowerChar c = [c] ∧ c ≠ 'Σ') ∧ isBlank c = false ∧ c ≠ '·' ∧ c ≠ '×' := by
    decide
  exact WrittenRecurrence.compactForm_eq_filter fun c hc => (h c hc).imp_right (hall c)

/-- The name of a class has the same compact form with and without blanks. -/
theorem compactForm_classText (hd : 0 ≤ d) (hl : l ≤ 1) :
    compactForm (classText d l) = classChars d l ∧
      compactForm (classChars d l) = classChars d l := by
  have hchars : ∀ c ∈ classChars d l, c = ' ' ∨ c ∈ powerChars ++ ['l', 'o', 'g'] :=
    fun c hc => .inr (mem_classChars hd hl c hc)
  rw [compactForm_of_name (mem_classText hd hl), compactForm_of_name hchars]
  refine ⟨rfl, List.filter_eq_self.mpr fun c hc => ?_⟩
  exact (List.mem_filter.mp hc).2

/-- The work of a class is read from the text of the class. -/
theorem read_classChars (hd : 0 ≤ d) (hfits : (Scalar.exact d).Fits)
    (hword : d.den = 1 → d.num < 2 ^ 63) (hl : l ≤ 1) :
    read (String.ofList (classChars d l)) =
      ofGrowth (Growth.polylog "n" (.exact d) (.ofNat l)) := by
  have hlogs : (Scalar.ofNat l).Fits := .ofInt (Scalar.fits_iff.mpr (by simp; omega))
  have hreads := readsSum_classChars hd hfits hl
  obtain ⟨m, hclosed, hopaque, hclass⟩ := Formula.closedForm_polylog isName_size hd hfits hword hl
  obtain ⟨c, cs, hchars, hc⟩ := exists_classChars hd hl
  have htext : compactForm (String.ofList (classChars d l)).toList = c :: cs := by
    rw [String.toList_ofList, (compactForm_classText hd hl).2, hchars]
  rw [hchars] at hreads
  rw [read_of_readsSum htext hc hreads, ofGrowth_polylog hfits hlogs]
  have hpoly : (Formula.polylog "n" (.exact d) (.ofNat l)).simplify.poly = Poly.term 1 m := hclosed
  have hgrowth :
      Growth.ofPoly ["n"] (Poly.term 1 m) = Growth.polylog "n" (.exact d) (.ofNat l) := by
    rw [Growth.ofPoly_term hopaque, hclass]
  rw [ofFormula, hpoly, hgrowth]
  rfl

end Work

end CostAnalysis
