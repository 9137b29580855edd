import CostAnalysis.Proofs.Recurrence.WorkTexts
import CostAnalysis.Recurrence.Derivation

/-!
# Recurrences are read back from their texts

The text of a recurrence joins the texts of its terms and of its work by plus
signs.  The reader never takes it apart at these signs: it searches for terms,
cuts them out and reads what is left as the work.

**Right sides.**  The text is written with few characters, and what becomes of
one of them does not depend on its neighbours (`plainChar`).  So the right side
is again a joined text, of the addends without blanks and in small letters
(`IsReadable.rightSide_text`).

**Terms and work.**  No match of a term crosses a plus sign.  The addends can
hence be searched one by one: a term is found as a whole
(`RecursiveTerm.replace_chars`) and read as it was
(`RecursiveTerm.IsProper.toTerm_written`), and in a work nothing is found
(`IsReadable.replace_work`).
-/

namespace CostAnalysis

open Text

/-! ## Joined texts -/

section Joined

variable {α β : Type} {separator : List α} {parts : List (List α)}

/-- One more part comes with a separator before it. -/
theorem intercalate_concat (hne : parts ≠ []) (last : List α) :
    separator.intercalate (parts ++ [last]) = separator.intercalate parts ++ separator ++ last := by
  induction parts with
  | nil => exact absurd rfl hne
  | cons part parts ih =>
      cases parts with
      | nil => simp [List.intercalate_cons_cons]
      | cons next parts =>
          have hih := ih (List.cons_ne_nil next parts)
          rw [List.cons_append] at hih
          rw [List.cons_append, List.cons_append, List.intercalate_cons_cons, hih,
            List.intercalate_cons_cons]
          simp only [List.append_assoc]

/-- What stands in a joined text stands in the separator or in a part. -/
theorem mem_of_mem_intercalate {a : α} (h : a ∈ separator.intercalate parts) :
    a ∈ separator ∨ ∃ part ∈ parts, a ∈ part := by
  induction parts with
  | nil => exact (List.not_mem_nil h).elim
  | cons part parts ih =>
      cases parts with
      | nil => exact Or.inr ⟨part, List.mem_cons_self, by simpa using h⟩
      | cons next parts =>
          rw [List.intercalate_cons_cons, List.append_assoc, List.mem_append, List.mem_append] at h
          rcases h with h | h | h
          · exact Or.inr ⟨part, List.mem_cons_self, h⟩
          · exact Or.inl h
          · exact (ih h).imp_right fun ⟨p, hp, ha⟩ => ⟨p, List.mem_cons_of_mem _ hp, ha⟩

/-- What is done to each character is done to the separator and to each part, so
that the text stays joined. -/
theorem flatMap_intercalate (f : α → List β) : (separator.intercalate parts).flatMap f =
    (separator.flatMap f).intercalate (parts.map (List.flatMap f)) := by
  induction parts with
  | nil => rfl
  | cons part parts ih =>
      cases parts with
      | nil => simp
      | cons next parts =>
          rw [List.intercalate_cons_cons, List.flatMap_append, List.flatMap_append, ih,
            List.map_cons, List.map_cons, List.map_cons, List.intercalate_cons_cons]

end Joined

/-! ## Terms

A proper term is found again in its own text, with its coefficient, and the
words that coefficient and amount are narrowed to hold them. -/

/-- The least amount that makes the problem smaller. -/
def ReductionKind.least : ReductionKind → ℕ
  | .division => 2
  | .subtraction => 1

namespace RecursiveTerm

/-- A term of which the coefficient and the amount are held by words and that
makes the problem smaller. -/
structure IsProper (t : RecursiveTerm) : Prop where
  coefficient_pos : 0 < t.coefficient
  coefficient_lt : t.coefficient < 2 ^ 32
  least_le : t.kind.least ≤ t.amount
  amount_lt : t.amount < 2 ^ 32

/-- The coefficient as a recursive term begins with it. -/
def coefficientChars (a : ℕ) : List Char :=
  if a = 1 then [] else Nat.toDigits 10 a

/-- The text of a term in small letters. -/
def chars (t : RecursiveTerm) : List Char :=
  coefficientChars t.coefficient ++
    't' :: '(' :: 'n' :: t.kind.sign :: (Nat.toDigits 10 t.amount ++ [')'])

/-- The term as it is found in its text. -/
def written (t : RecursiveTerm) : TermMatch where
  lead := []
  coefficient? := if t.coefficient = 1 then none else some (Nat.toDigits 10 t.coefficient)
  kind := t.kind
  amount := Nat.toDigits 10 t.amount
  body := t.chars

/-- A number is written in decimal digits. -/
theorem isDecimalDigit_of_mem_toDigits {k : ℕ} {c : Char} (hc : c ∈ Nat.toDigits 10 k) :
    isDecimalDigit c = true := by
  have hall : ∀ c ∈ "0123456789".toList, isDecimalDigit c = true := by decide
  exact hall c (mem_of_mem_toDigits hc)

variable (t : RecursiveTerm)

/-- The term that is found in the text of a term is well-formed. -/
theorem formed_written : t.written.Formed := by
  refine ⟨Nat.toDigits_ne_nil, fun c hc => isDecimalDigit_of_mem_toDigits hc,
    coefficientChars t.coefficient, ?_, rfl⟩
  rw [written, coefficientChars]
  split
  · exact .absent
  · exact .number Nat.toDigits_ne_nil fun c hc => isDecimalDigit_of_mem_toDigits hc

/-- A term is found as all of its text, and nothing is left of it. -/
theorem replace_chars : matchesIn TermMatch.pattern t.chars = [t.written] ∧
    replace TermMatch.pattern TermMatch.lead t.chars = [] := by
  have hbody : TermMatch.body? [] t.chars = some t.written :=
    TermMatch.body?_eq_some_iff.mpr ⟨rfl, t.formed_written, List.prefix_rfl⟩
  have hne : t.chars ≠ [] := by simp [chars]
  refine replace_of_match ?_ hne
  simp only [TermMatch.pattern, Option.isNone_none, if_true, hbody]
  simp [written]

/-- A number below `2 ^ 32` is read back from its digits. -/
theorem word?_toDigits {k : ℕ} (hk : k < 2 ^ 32) :
    TermMatch.word? (Nat.toDigits 10 k) = some k := by
  have hfits : Numeric.fitsUnsigned 32 k = true := by
    have htwo : Numeric.twoTo 32 = 2 ^ 32 := rfl
    simp [Numeric.fitsUnsigned, htwo]
    omega
  simp [TermMatch.word?, Formula.readInt_toDigits, hfits]

variable {t} in
/-- A term is read from its text. -/
theorem IsProper.toTerm_written (h : t.IsProper) (source : String) :
    t.written.toTerm source = .ok t := by
  obtain ⟨hpos, hcoefficient, hleast, hamount⟩ := h
  obtain ⟨a, kind, b⟩ := t
  have ha : TermMatch.word? (Nat.toDigits 10 a) = some a := word?_toDigits hcoefficient
  have hb : TermMatch.word? (Nat.toDigits 10 b) = some b := word?_toDigits hamount
  have hzero : a ≠ 0 := hpos.ne'
  have hlow : ¬b < kind.least := Nat.not_lt.mpr hleast
  cases kind with
  | division =>
      change ¬b < 2 at hlow
      by_cases hone : a = 1 <;> simp only [TermMatch.toTerm, written, ha, hb, hone, hzero, hlow,
        if_true, if_false, or_self, one_ne_zero]
  | subtraction =>
      change ¬b < 1 at hlow
      by_cases hone : a = 1 <;> simp only [TermMatch.toTerm, written, ha, hb, hone, hzero, hlow,
        if_true, if_false, or_self, one_ne_zero]

/-! ### Sums of terms -/

variable {ts us : List RecursiveTerm}

/-- A term with a new amount is added at the end, as no other one takes its
coefficient. -/
theorem merge_of_not_mem {t : RecursiveTerm} (h : t.amount ∉ ts.map amount) :
    merge t ts = ts ++ [t] := by
  induction ts with
  | nil => rfl
  | cons u us ih =>
      rw [List.map_cons, List.mem_cons, not_or] at h
      rw [merge, if_neg fun hsame => h.1 hsame.2.symm, ih h.2, List.cons_append]

/-- Terms of which no two reduce the size by the same amount are kept as they
are. -/
theorem foldl_merge_of_nodup (h : ((ts ++ us).map amount).Nodup) :
    us.foldl (fun ts t => merge t ts) ts = ts ++ us := by
  induction us generalizing ts with
  | nil => simp
  | cons u us ih =>
      have hnext : ((ts ++ [u] ++ us).map amount).Nodup := by simpa using h
      have hnew : u.amount ∉ ts.map amount := by
        rw [List.map_append, List.nodup_append] at h
        exact fun hmem => h.2.2 _ hmem _ List.mem_cons_self rfl
      rw [List.foldl_cons, merge_of_not_mem hnew, ih hnext, List.append_assoc]
      rfl

end RecursiveTerm

/-! ## Right sides

The text of a recurrence is written with capitals and blanks, and with a few
signs that stand for others.  The reader normalizes them character by
character. -/

namespace WrittenRecurrence

/-- What becomes of a character in a right side. -/
def plainChar (c : Char) : List Char :=
  ((lowerChar c).filter fun c => !isIgnored c).map plainSign

/-- The characters of the text of a recurrence that stay as they are. -/
def plainChars : List Char :=
  Work.powerChars ++ "log+-=t".toList

/-- The characters of the text of a recurrence. -/
def textChars : List Char :=
  ' ' :: 'T' :: plainChars

/-- The names of classes are written in characters that stay as they are. -/
theorem mem_plainChars_class : ∀ c ∈ Work.powerChars ++ ['l', 'o', 'g'], c ∈ plainChars := by
  decide

variable {text : List Char}

/-- Where only blanks are ignored, taking out blanks is all that is done. -/
theorem flatMap_plainChar (h : ∀ c ∈ text, c = ' ' ∨ c ∈ plainChars) :
    text.flatMap plainChar = text.filter fun c => !isBlank c := by
  have hblank : plainChar ' ' = [] ∧ isBlank ' ' = true := by decide
  have hall : ∀ c ∈ plainChars, plainChar c = [c] ∧ isBlank c = false := by decide
  induction text with
  | nil => rfl
  | cons c text ih =>
      obtain ⟨hc, htext⟩ := List.forall_mem_cons.mp h
      rw [List.flatMap_cons, ih htext, List.filter_cons]
      rcases hc with rfl | hc
      · simp [hblank]
      · simp [hall c hc]

theorem flatMap_plainChar_of_plain (h : ∀ c ∈ text, c ∈ plainChars) :
    text.flatMap plainChar = text := by
  have hall : ∀ c ∈ plainChars, (!isBlank c) = true := by decide
  rw [flatMap_plainChar fun c hc => Or.inr (h c hc)]
  exact List.filter_eq_self.mpr fun c hc => hall c (h c hc)

/-- The right side of a text of these characters. -/
theorem rightSide_of_textChars (h : ∀ c ∈ text, c ∈ textChars) {right : List Char}
    (htext : text.flatMap plainChar = "t(n)=".toList ++ right)
    (hright : ∀ c ∈ right, c ∈ plainChars) : rightSide text = right := by
  have hsigma : 'Σ' ∉ text := fun hmem => absurd (h _ hmem) (by decide)
  have hplain : ((lowercase text).filter fun c => !isIgnored c).map plainSign =
      "t(n)=".toList ++ right := by
    rw [← htext, lowercase_eq_flatMap hsigma, List.filter_flatMap, List.map_flatMap]
    rfl
  have hsplit : splitFirst '=' ("t(n)=".toList ++ right) = some ("t(n)".toList, right) := rfl
  rw [rightSide, hplain, hsplit]
  refine (replace_of_scan_eq_map (scan_of_none fun before part hpart hne => ?_)).2
  -- no rounding is written in the text of a recurrence
  have hhead : ∀ c, c ∉ plainChars → part.head? ≠ some c := by
    intro c hc hhead
    exact hc (hright c (hpart.subset (List.mem_of_mem_head? hhead)))
  have hfloor : afterStart "floor(".toList part = none :=
    Work.afterStart_of_head?_ne (hhead 'f' (by decide))
  have hceil : afterStart "ceil(".toList part = none :=
    Work.afterStart_of_head?_ne (hhead 'c' (by decide))
  rw [roundedSize, List.findSome?_cons, hfloor, List.findSome?_cons, hceil]
  rfl

/-! ## What is left

Where the terms are cut out of a text and the plus signs tidied, the addends of
the work are left, and these hold no letter of a term.  So the search for a
stray term finds nothing in them. -/

/-- The places of terms that were cut out leave nothing behind. -/
theorem tidy_intercalate {parts rest : List (List Char)} (h : ∀ part ∈ parts, part = []) :
    tidy (['+'].intercalate (parts ++ rest)) = tidy (['+'].intercalate rest) := by
  induction parts with
  | nil => rfl
  | cons part parts ih =>
      obtain ⟨rfl, hparts⟩ := List.forall_mem_cons.mp h
      rw [← ih hparts, List.cons_append]
      cases parts ++ rest with
      | nil => rfl
      | cons next more =>
          rw [List.intercalate_cons_cons, List.nil_append, List.singleton_append, tidy_plus]

/-- A text without plus signs is tidy. -/
theorem tidy_of_not_mem (h : '+' ∉ text) : tidy text = text := by
  have hmerge : mergePluses text = text := by
    induction text with
    | nil => rfl
    | cons c text ih =>
        rw [List.mem_cons, not_or] at h
        rw [mergePluses_cons, if_neg (by simp [Ne.symm h.1]), ih h.2]
  have hbare : Bare text :=
    ⟨fun hhead => h (List.mem_of_mem_head? hhead), fun hlast => h (List.mem_of_mem_getLast? hlast)⟩
  rw [tidy_of_bare hbare, hmerge]

/-- Without the name of the recurrence nothing looks like a term. -/
theorem scan_strayTerm_of_not_mem (h : 't' ∉ text) : scan strayTerm text = text.map .inl := by
  refine scan_of_none fun before part hpart _ => ?_
  have hpart' : 't' ∉ part := fun hmem => h (hpart.subset hmem)
  unfold strayTerm
  split
  · simp at hpart'
  · simp at hpart'
  · rfl

theorem scan_pattern_of_not_mem (h : 't' ∉ text) :
    scan TermMatch.pattern text = text.map .inl := by
  refine scan_of_absent (p := (· == 't')) ?_ fun c hc => ?_
  · refine TermMatch.takes_pattern.mono ?_
    rintro m taken ⟨rfl, -, -, front, -, hbody⟩
    exact ⟨'t', by simp [hbody], rfl⟩
  · rw [beq_eq_false_iff_ne]
    rintro rfl
    exact h hc

end WrittenRecurrence

namespace RecursiveTerm

theorem mem_plainChars_of_mem_toDigits {k : ℕ} {c : Char} (hc : c ∈ Nat.toDigits 10 k) :
    c ∈ WrittenRecurrence.plainChars :=
  List.mem_append_left _ (List.mem_append_left _ (mem_of_mem_toDigits hc))

/-- Coefficients are written in characters that stay as they are. -/
theorem mem_plainChars_coefficientChars (a : ℕ) :
    ∀ c ∈ coefficientChars a, c ∈ WrittenRecurrence.plainChars := by
  rw [coefficientChars]
  split
  · exact fun c hc => (List.not_mem_nil hc).elim
  · exact fun c hc => mem_plainChars_of_mem_toDigits hc

theorem mem_plainChars_chars (t : RecursiveTerm) :
    ∀ c ∈ t.chars, c ∈ WrittenRecurrence.plainChars := by
  have hsign : t.kind.sign ∈ WrittenRecurrence.plainChars := by cases t.kind <;> decide
  simp only [chars, List.forall_mem_append, List.forall_mem_cons]
  exact ⟨mem_plainChars_coefficientChars _, by decide, by decide, by decide, hsign,
    fun c hc => mem_plainChars_of_mem_toDigits hc, by decide⟩

/-- The text of a term, character by character. -/
theorem toList_text (t : RecursiveTerm) : t.text.toList = coefficientChars t.coefficient ++
    'T' :: '(' :: 'n' :: t.kind.sign :: (Nat.toDigits 10 t.amount ++ [')']) := by
  have hcoefficient : (coefficientText t.coefficient).toList = coefficientChars t.coefficient := by
    rw [coefficientText, coefficientChars]
    split
    · rfl
    · simp
  have hargument : t.argument.toList = 'n' :: t.kind.sign :: Nat.toDigits 10 t.amount := by
    rw [argument]
    cases t.kind <;> simp [ReductionKind.sign]
  simp [text, hcoefficient, hargument]

/-- Of the text of a term just the capital letter changes. -/
theorem flatMap_text (t : RecursiveTerm) :
    t.text.toList.flatMap WrittenRecurrence.plainChar = t.chars := by
  have hchars := WrittenRecurrence.flatMap_plainChar_of_plain t.mem_plainChars_chars
  have hcall : WrittenRecurrence.plainChar 'T' = WrittenRecurrence.plainChar 't' := by decide
  rw [← hchars, toList_text, chars]
  simp only [List.flatMap_append, List.flatMap_cons, hcall]

/-- The text of a term is written in the characters of recurrences. -/
theorem mem_textChars_text (t : RecursiveTerm) :
    ∀ c ∈ t.text.toList, c ∈ WrittenRecurrence.textChars := by
  intro c hc
  have hchars : c = 'T' ∨ c ∈ t.chars := by
    rw [toList_text, List.mem_append, List.mem_cons] at hc
    rw [chars, List.mem_append, List.mem_cons]
    tauto
  rcases hchars with rfl | hchars
  · decide
  · exact List.mem_cons_of_mem _ (List.mem_cons_of_mem _ (t.mem_plainChars_chars c hchars))

end RecursiveTerm

/-! ## Reading back

A recurrence that can be read back has terms of one kind with different amounts,
so that no two of them are merged and they come back in their order.  The work
comes back as one addend, or as none if there is no work. -/

namespace Work

/-- No work, or a power of the size, alone or times the logarithm of the size.
The degree is a rational number of the words of scalars, and a word of 64 bits
holds it if it is integral. -/
inductive IsReadable : Work → Prop
  | zero : IsReadable (read "0")
  | power {d : ℚ} {l : ℕ} (hd : 0 ≤ d) (hfits : (Scalar.exact d).Fits)
      (hword : d.den = 1 → d.num < 2 ^ 63) (hl : l ≤ 1) :
      IsReadable (ofGrowth (Growth.polylog "n" (.exact d) (.ofNat l)))

/-- The text of a work as an addend; none where there is no work. -/
def addends (w : Work) : List (List Char) :=
  if w.isZero then [] else [w.text.toList]

variable {w : Work}

/-- The work of a class has the name of the class as its only addend. -/
theorem addends_ofGrowth {d : ℚ} {l : ℕ} (hd : 0 ≤ d) (hfits : (Scalar.exact d).Fits) (hl : l ≤ 1) :
    (ofGrowth (Growth.polylog "n" (.exact d) (.ofNat l))).addends = [classText d l] := by
  have hlogs : (Scalar.ofNat l).Fits := .ofInt (Scalar.fits_iff.mpr (by simp; omega))
  have hzero : (Growth.polylog "n" (.exact d) (.ofNat l)).text ≠ "0" := by
    intro htext
    obtain ⟨c, cs, hchars, hc⟩ := exists_classChars hd hl
    have hdigit : ['0'] = c :: cs := by
      rw [← hchars, classChars, classText, htext]
      decide
    simp [← (List.cons.inj hdigit).1] at hc
  rw [ofGrowth_polylog hfits hlogs, addends, isZero, if_neg (by simpa using hzero)]
  rfl

/-- The addends of a work without blanks. -/
def plainAddends (w : Work) : List (List Char) :=
  w.addends.map fun part => part.filter fun c => !isBlank c

/-- The addends of a readable work are written in blanks and the characters of
classes. -/
theorem IsReadable.mem_addends (h : w.IsReadable) :
    ∀ part ∈ w.addends, ∀ c ∈ part, c = ' ' ∨ c ∈ powerChars ++ ['l', 'o', 'g'] := by
  cases h with
  | zero => exact fun part hpart => (List.not_mem_nil hpart).elim
  | power hd hfits hword hl =>
      rw [addends_ofGrowth hd hfits hl, List.forall_mem_singleton]
      exact mem_classText hd hl

/-- Without blanks, in the characters of classes alone. -/
theorem IsReadable.mem_plainAddends (h : w.IsReadable) :
    ∀ part ∈ w.plainAddends, ∀ c ∈ part, c ∈ powerChars ++ ['l', 'o', 'g'] := by
  rw [plainAddends, List.forall_mem_map]
  exact fun part hpart => mem_of_mem_filter (h.mem_addends part hpart)

/-- A work is read from its addends. -/
theorem IsReadable.read_plainAddends (h : w.IsReadable) :
    read (String.ofList (['+'].intercalate w.plainAddends)) = w := by
  cases h with
  | zero => rfl
  | power hd hfits hword hl =>
      rw [plainAddends, addends_ofGrowth hd hfits hl, List.map_singleton,
        List.intercalate_singleton]
      exact read_classChars hd hfits hword hl

/-- Nothing is to be cut out of an addend of a work, and nothing to be
trimmed. -/
theorem IsReadable.not_mem_of_mem (h : w.IsReadable) :
    ∀ part ∈ w.plainAddends, 't' ∉ part ∧ '+' ∉ part := by
  have hchars : 't' ∉ powerChars ++ ['l', 'o', 'g'] ∧ '+' ∉ powerChars ++ ['l', 'o', 'g'] := by
    decide
  exact fun part hpart => ⟨fun hmem => hchars.1 (h.mem_plainAddends part hpart _ hmem),
    fun hmem => hchars.2 (h.mem_plainAddends part hpart _ hmem)⟩

/-- So neither the name of the recurrence nor a plus sign stands in a work. -/
theorem IsReadable.not_mem_intercalate (h : w.IsReadable) :
    't' ∉ ['+'].intercalate w.plainAddends ∧ '+' ∉ ['+'].intercalate w.plainAddends := by
  have hparts := h.not_mem_of_mem
  revert hparts
  rw [plainAddends, addends]
  split
  · exact fun _ => by decide
  · intro hparts
    rw [List.map_singleton, List.intercalate_singleton]
    exact hparts _ List.mem_cons_self

end Work

namespace Recurrence

/-- The text of a recurrence can be read back: its terms are proper and of one
kind, no two of them reduce the size by the same amount, and its work is
readable. -/
structure IsReadable (r : Recurrence) : Prop where
  ne_nil : r.terms ≠ []
  kind : ∀ t ∈ r.terms, ∀ u ∈ r.terms, t.kind = u.kind
  nodup : (r.terms.map RecursiveTerm.amount).Nodup
  proper : ∀ t ∈ r.terms, t.IsProper
  work : r.work.IsReadable

/-- The addends of the text of a recurrence. -/
def addends (r : Recurrence) : List (List Char) :=
  (r.terms.map fun t => t.text.toList) ++ r.work.addends

/-- The addends of a recurrence without blanks and in small letters. -/
def plainAddends (r : Recurrence) : List (List Char) :=
  r.terms.map RecursiveTerm.chars ++ r.work.plainAddends

variable {r : Recurrence}

/-- The text of a recurrence with at least one term is its addends, joined. -/
theorem toList_text (h : r.terms ≠ []) :
    r.text.toList = "T(n) = ".toList ++ " + ".toList.intercalate r.addends := by
  have hterms : (r.terms.map fun t => t.text.toList) ≠ [] := by simpa using h
  have hjoin : (" + ".intercalate (r.terms.map RecursiveTerm.text)).toList =
      " + ".toList.intercalate (r.terms.map fun t => t.text.toList) := by
    rw [String.toList_intercalate, List.map_map]
    rfl
  rw [text, addends, Work.addends]
  split
  · rw [String.toList_append, hjoin, List.append_nil]
  · rw [intercalate_concat hterms, String.toList_append, String.toList_append,
      String.toList_append, hjoin]
    simp only [List.append_assoc]

namespace IsReadable

variable (h : r.IsReadable)
include h

/-- Each addend becomes the one without blanks and in small letters. -/
theorem map_addends :
    r.addends.map (List.flatMap WrittenRecurrence.plainChar) = r.plainAddends := by
  have hwork : r.work.addends.map (List.flatMap WrittenRecurrence.plainChar) =
      r.work.plainAddends := by
    refine List.map_congr_left fun part hpart => WrittenRecurrence.flatMap_plainChar fun c hc => ?_
    exact (h.work.mem_addends part hpart c hc).imp_right (WrittenRecurrence.mem_plainChars_class c)
  rw [addends, plainAddends, List.map_append, List.map_map, hwork]
  congr 1
  exact List.map_congr_left fun t _ => t.flatMap_text

/-- The addends without blanks are written in characters that stay as they
are. -/
theorem mem_plainChars :
    ∀ part ∈ r.plainAddends, ∀ c ∈ part, c ∈ WrittenRecurrence.plainChars := by
  intro part hpart c hc
  rcases List.mem_append.mp hpart with hpart | hpart
  · obtain ⟨t, -, rfl⟩ := List.mem_map.mp hpart
    exact t.mem_plainChars_chars c hc
  · exact WrittenRecurrence.mem_plainChars_class c (h.work.mem_plainAddends part hpart c hc)

theorem mem_textChars : ∀ c ∈ r.text.toList, c ∈ WrittenRecurrence.textChars := by
  rw [toList_text h.ne_nil, List.forall_mem_append]
  refine ⟨by decide, fun c hc => ?_⟩
  rcases mem_of_mem_intercalate hc with hc | ⟨part, hpart, hc⟩
  · have hall : ∀ c ∈ " + ".toList, c ∈ WrittenRecurrence.textChars := by decide
    exact hall c hc
  · rcases List.mem_append.mp hpart with hpart | hpart
    · obtain ⟨t, -, rfl⟩ := List.mem_map.mp hpart
      exact t.mem_textChars_text c hc
    · rcases h.work.mem_addends part hpart c hc with rfl | hc
      · decide
      · exact List.mem_cons_of_mem _
          (List.mem_cons_of_mem _ (WrittenRecurrence.mem_plainChars_class c hc))

/-- The right side of the text of a recurrence. -/
theorem rightSide_text :
    WrittenRecurrence.rightSide r.text.toList = ['+'].intercalate r.plainAddends := by
  have hleft : "T(n) = ".toList.flatMap WrittenRecurrence.plainChar = "t(n)=".toList := by decide
  have hsign : " + ".toList.flatMap WrittenRecurrence.plainChar = ['+'] := by decide
  refine WrittenRecurrence.rightSide_of_textChars h.mem_textChars ?_ fun c hc => ?_
  · rw [toList_text h.ne_nil, List.flatMap_append, flatMap_intercalate, hleft, hsign, h.map_addends]
  · rcases mem_of_mem_intercalate hc with hc | ⟨part, hpart, hc⟩
    · rw [List.mem_singleton.mp hc]
      decide
    · exact h.mem_plainChars part hpart c hc

/-- Nothing of a work is a term. -/
theorem replace_work {part : List Char} (hpart : part ∈ r.work.plainAddends) :
    matchesIn TermMatch.pattern part = [] ∧
      replace TermMatch.pattern TermMatch.lead part = part :=
  replace_of_scan_eq_map
    (WrittenRecurrence.scan_pattern_of_not_mem (h.work.not_mem_of_mem part hpart).1)

/-- The terms are found as they were written. -/
theorem map_matchesIn (source : String) :
    (matchesIn TermMatch.pattern (['+'].intercalate r.plainAddends)).map
      (TermMatch.toTerm source) = r.terms.map Except.ok := by
  have hjoins : ∀ m m' : TermMatch, m = { m' with lead := ['+'] } ∧ m'.lead = [] →
      m.toTerm source = m'.toTerm source := by
    rintro m m' ⟨rfl, -⟩
    rfl
  have hterms : (r.terms.map RecursiveTerm.chars).flatMap (fun part =>
      (matchesIn TermMatch.pattern part).map (TermMatch.toTerm source)) =
      r.terms.map Except.ok := by
    rw [List.flatMap_map, List.map_eq_flatMap]
    refine List.flatMap_congr fun t ht => ?_
    rw [t.replace_chars.1, List.map_singleton, (h.proper t ht).toTerm_written]
  have hwork : r.work.plainAddends.flatMap (fun part =>
      (matchesIn TermMatch.pattern part).map (TermMatch.toTerm source)) = [] := by
    refine List.flatMap_eq_nil_iff.mpr fun part hpart => ?_
    rw [(h.replace_work hpart).1, List.map_nil]
  rw [Splits.map_matchesIn_intercalate TermMatch.splits_pattern hjoins, plainAddends,
    List.flatMap_append, hterms, hwork, List.append_nil]

/-- The work is left where the terms are cut out. -/
theorem remainder_text : WrittenRecurrence.remainder (['+'].intercalate r.plainAddends) =
    ['+'].intercalate r.work.plainAddends := by
  have hterms : ∀ part ∈ (r.terms.map RecursiveTerm.chars).map
      (replace TermMatch.pattern TermMatch.lead), part = [] := by
    intro part hpart
    rw [List.map_map] at hpart
    obtain ⟨t, -, rfl⟩ := List.mem_map.mp hpart
    exact t.replace_chars.2
  have hwork : r.work.plainAddends.map (replace TermMatch.pattern TermMatch.lead) =
      r.work.plainAddends :=
    (List.map_congr_left fun part hpart => (h.replace_work hpart).2).trans (List.map_id _)
  rw [WrittenRecurrence.remainder_eq_tidy, Splits.replace_intercalate TermMatch.splits_pattern
    (by rintro m m' ⟨rfl, hlead⟩; rw [hlead]), plainAddends, List.map_append, hwork,
    WrittenRecurrence.tidy_intercalate hterms]
  exact WrittenRecurrence.tidy_of_not_mem h.work.not_mem_intercalate.2

/-- No call is left where the terms are cut out. -/
theorem occurs_strayTerm :
    occurs WrittenRecurrence.strayTerm (['+'].intercalate r.work.plainAddends) = false :=
  occurs_of_scan_eq_map
    (WrittenRecurrence.scan_strayTerm_of_not_mem h.work.not_mem_intercalate.1)

end IsReadable

/-- **Recurrences are read back from their texts.** -/
theorem read_text (h : r.IsReadable) : WrittenRecurrence.read r.text =
    .ok { raw := trimString r.text, terms := r.terms, work := r.work } := by
  obtain ⟨t, ts, hterms⟩ := List.exists_cons_of_ne_nil h.ne_nil
  have hfound : (matchesIn TermMatch.pattern (['+'].intercalate r.plainAddends)).mapM
      (TermMatch.toTerm r.text) = pure (t :: ts) := by
    rw [← Function.id_comp (TermMatch.toTerm r.text), ← List.mapM_map, h.map_matchesIn,
      List.mapM_map, hterms]
    exact List.mapM_pure.trans (congrArg pure (List.map_id _))
  have hmerged : (t :: ts).foldl (fun ts t => RecursiveTerm.merge t ts) [] = t :: ts :=
    RecursiveTerm.foldl_merge_of_nodup (hterms ▸ h.nodup)
  have hkind : (ts.any fun u => u.kind != t.kind) = false := by
    refine List.any_eq_false.mpr fun u hu => ?_
    have hsame : u.kind = t.kind :=
      h.kind u (by simp [hterms, hu]) t (by simp [hterms])
    simp [hsame]
  simp only [WrittenRecurrence.read, h.rightSide_text, hfound, pure_bind, hmerged, hkind,
    h.remainder_text, h.occurs_strayTerm, h.work.read_plainAddends, hterms]
  rfl

/-- Two halves and a quarter, and `n^(1/2) log n` besides. -/
def halvesAndQuarter : Recurrence where
  kind := .twoDivisions
  terms := [⟨2, .division, 2⟩, ⟨1, .division, 4⟩]
  work := .ofGrowth (Growth.polylog "n" (.exact (1 / 2)) (.ofNat 1))

/-- The terms of `halvesAndQuarter` have different amounts, and the degree of
its work is positive.
-/
theorem halvesAndQuarter_isReadable : halvesAndQuarter.IsReadable where
  ne_nil := List.cons_ne_nil _ _
  kind := by decide
  nodup := by decide
  proper := List.forall_mem_cons.mpr ⟨⟨by decide, by decide, by decide, by decide⟩,
    List.forall_mem_singleton.mpr ⟨by decide, by decide, by decide, by decide⟩⟩
  work := .power (by decide +kernel) ⟨1 / 2, rfl, by decide +kernel, by decide +kernel⟩
    (by decide +kernel) le_rfl

/-- The theorem on a recurrence with two terms and a work that is no power
alone. -/
theorem read_text_halvesAndQuarter : halvesAndQuarter.IsReadable ∧
    WrittenRecurrence.read halvesAndQuarter.text =
      .ok { raw := trimString halvesAndQuarter.text, terms := halvesAndQuarter.terms,
            work := halvesAndQuarter.work } :=
  ⟨halvesAndQuarter_isReadable, read_text halvesAndQuarter_isReadable⟩

example : halvesAndQuarter.text = "T(n) = 2T(n/2) + T(n/4) + n^(1/2) log n" := by decide +kernel

end Recurrence

end CostAnalysis
