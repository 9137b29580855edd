import CostAnalysis.Proofs.Formula.Grammar
import CostAnalysis.Recurrence.Reader
import Mathlib.Data.List.DropRight

/-!
# The notation of recurrences

The reader of a recurrence searches the right side for terms, cuts them out, and
writes out what is left as a formula.  It does so with patterns, and never takes
the text apart at its plus signs.  Here is how the parts of a right side behave
under this, so that a sum can be treated addend by addend all the same.

**Work.**  `Work.explicit` writes out each addend on its own
(`Work.explicit_append`) and keeps the nesting (`Work.depthAfter_explicit`).

**Terms.**  A recursive term that is found has the form `at(n/b)` or `at(n-b)`
(`TermMatch.body?_eq_some_iff`), crosses no plus sign, and leaves the nesting as
it was.

**Plus signs.**  Cutting out terms leaves plus signs without addends; these are
merged and trimmed, and the addends stay (`WrittenRecurrence.tidy_append`).

**How patterns are dealt with.**  Of each pattern it is said what it takes
(`Text.Pattern.Takes`), and that no match crosses the sign between two parts
(`Text.Splits`).  What the second needs is that the sign is no letter, and that
either it is a plus sign or nothing follows it: the last character of a name, a
bracket of a bound, is treated like a sign between parts.  Replacing then
commutes with putting the parts together, whatever the pattern is.
-/

namespace CostAnalysis

open Text

namespace Work

/-! ## Characters -/

/-- Letters do not matter for the nesting. -/
theorem isLevel_of_isSmallLetter {c : Char} (h : isSmallLetter c = true) : isLevel c = true := by
  simp only [isLevel, Bool.and_eq_true, bne_iff_ne]
  refine ⟨⟨?_, ?_⟩, ?_⟩ <;>
  · rintro rfl
    exact absurd h (by decide)

theorem isLevel_of_isDecimalDigit {c : Char} (h : isDecimalDigit c = true) : isLevel c = true := by
  simp only [isLevel, Bool.and_eq_true, bne_iff_ne]
  refine ⟨⟨?_, ?_⟩, ?_⟩ <;>
  · rintro rfl
    exact absurd h (by decide)

/-! ## Patterns

What a pattern takes is a statement about the text it takes and what stands
behind it, and it does not mention the scan.  Only these lemmas unfold the
patterns. -/

/-- A logarithm without parentheses is taken with the letter that it applies
to. -/
theorem takes_bareLog :
    bareLog.Takes fun c taken => isSmallLetter c = true ∧ taken = ['l', 'o', 'g', c] := by
  intro before text c length h
  rw [bareLog] at h
  split at h
  · next d more hafter =>
      obtain ⟨hletter, heq⟩ := Option.ite_none_right_eq_some.mp h
      cases heq
      refine ⟨['l', 'o', 'g', c], more, ?_, rfl, List.cons_ne_nil _ _, hletter, rfl⟩
      rw [Formula.Reader.eq_append_of_afterStart hafter]
      rfl
  · cases h

/-- A letter before a logarithm is taken with the beginning of the logarithm. -/
theorem takes_factorBeforeLog :
    factorBeforeLog.Takes fun c taken => taken = [c, 'l', 'o', 'g', '('] := by
  intro before text c length h
  cases text with
  | nil => cases h
  | cons d rest =>
      obtain ⟨hfactor, heq⟩ := Option.ite_none_right_eq_some.mp h
      cases heq
      obtain ⟨more, hmore⟩ := Option.isSome_iff_exists.mp (Bool.and_eq_true_iff.mp hfactor).2
      refine ⟨[c, 'l', 'o', 'g', '('], more, ?_, rfl, List.cons_ne_nil _ _, rfl⟩
      rw [Formula.Reader.eq_append_of_afterStart hmore]
      rfl

/-- A number before a factor has a digit at least, and stands at the front with
its factor. -/
theorem of_numberBeforeFactor {text n : List Char} {c : Char}
    (h : numberBeforeFactor text = some (n, c)) :
    n ≠ [] ∧ ∃ more, text = n ++ [c] ++ more := by
  rw [numberBeforeFactor] at h
  split at h
  · next d ds e more hdigits hmore =>
      obtain ⟨-, heq⟩ := Option.ite_none_right_eq_some.mp h
      cases heq
      refine ⟨List.cons_ne_nil d ds, more, ?_⟩
      rw [List.append_assoc, List.singleton_append, ← hdigits, ← hmore,
        List.takeWhile_append_dropWhile]
  · cases h

/-- A coefficient is taken with the sign before it, if there is one, and the
factor behind it. -/
theorem takes_coefficientBeforeFactor :
    coefficientBeforeFactor.Takes fun value taken =>
      value.2.1 ≠ [] ∧ taken = value.1 ++ (value.2.1 ++ [value.2.2]) := by
  intro before text value length h
  simp only [coefficientBeforeFactor] at h
  split at h
  · next found hstart =>
      cases h
      obtain ⟨-, hstart⟩ := Option.ite_none_right_eq_some.mp hstart
      obtain ⟨⟨n, c⟩, hfound, heq⟩ := Option.map_eq_some_iff.mp hstart
      cases heq
      obtain ⟨hnumber, more, rfl⟩ := of_numberBeforeFactor hfound
      exact ⟨n ++ [c], more, rfl, by simp, by simp, hnumber, rfl⟩
  · next s rest hstart =>
      obtain ⟨-, h⟩ := Option.ite_none_right_eq_some.mp h
      obtain ⟨⟨n, c⟩, hfound, heq⟩ := Option.map_eq_some_iff.mp h
      cases heq
      obtain ⟨hnumber, more, rfl⟩ := of_numberBeforeFactor hfound
      exact ⟨s :: (n ++ [c]), more, rfl, by simp, by simp, hnumber, rfl⟩
  · cases h

/-! ## Writing out

The three replacements of `Work.explicit` are made one after the other on the
whole text, so each of them must commute with putting addends together for all
to do so.  For two of the patterns that needs to know the letter or bracket at
the end of the addend in front. -/

/-- Writing out a text keeps its nesting. -/
theorem depthAfter_explicit (plus : Bool) (depth : ℕ) (text : List Char) :
    depthAfter plus depth (explicit text) = depthAfter plus depth text := by
  rw [explicit, depthAfter_replace takes_coefficientBeforeFactor,
    depthAfter_replace takes_factorBeforeLog, depthAfter_replace takes_bareLog]
  -- parentheses are only added in pairs around a letter, and products never
  -- change the nesting
  · rintro c taken ⟨hc, rfl⟩ d
    have hstep : ∀ d, depthStep plus d c = some d := fun d =>
      depthStep_of_isLevel (isLevel_of_isSmallLetter hc)
    have hlevel : ∀ c ∈ ['l', 'o', 'g'], isLevel c = true := List.all_eq_true.mp (by decide)
    simp [hstep, hlevel, depthStep_of_isLevel]
  · rintro c taken rfl d
    simp [depthStep_of_isLevel, isLevel]
  · rintro ⟨sign, n, c⟩ taken ⟨-, rfl⟩ d
    simp [depthAfter_append, depthStep_of_isLevel, isLevel]

/-- What holds of all characters of a text and of those that are added holds of
all that is written out. -/
theorem forall_mem_explicit {P : Char → Prop} (hadded : ∀ c ∈ ['l', 'o', 'g', '(', ')', '*'], P c)
    {text : List Char} (htext : ∀ c ∈ text, P c) : ∀ c ∈ explicit text, P c := by
  simp only [List.forall_mem_cons] at hadded
  refine forall_mem_replace ?_ (forall_mem_replace ?_ (forall_mem_replace ?_ htext))
  · rintro before text ⟨sign, n, c⟩ length hmatch htext d hd
    obtain ⟨taken, more, rfl, -, -, -, rfl⟩ := takes_coefficientBeforeFactor _ _ _ _ hmatch
    simp only [List.mem_append, List.mem_cons] at hd htext
    grind
  · intro before text c length hmatch htext d hd
    obtain ⟨taken, more, rfl, -, -, rfl⟩ := takes_factorBeforeLog _ _ _ _ hmatch
    simp only [List.mem_append, List.mem_cons] at hd htext
    grind
  · intro before text c length hmatch htext d hd
    obtain ⟨taken, more, rfl, -, -, -, rfl⟩ := takes_bareLog _ _ _ _ hmatch
    simp only [List.mem_append, List.mem_cons] at hd htext
    grind

/-- A beginning in which a character does not occur does not reach beyond that
character. -/
theorem afterStart_append_cons {start text rest : List Char} {c : Char} (hc : c ∉ start) :
    afterStart start (text ++ c :: rest) = (afterStart start text).map (· ++ c :: rest) := by
  induction start generalizing text with
  | nil => rfl
  | cons d start ih =>
      rw [List.mem_cons, not_or] at hc
      cases text with
      | nil =>
          show (if (d == c) = true then _ else none) = _
          rw [if_neg (by simpa using Ne.symm hc.1)]
          rfl
      | cons e text =>
          rw [List.cons_append, afterStart, afterStart, ih hc.2]
          split
          · rfl
          · rfl

section Signs

variable {sign : Char} {rest : List Char} (hletter : isSmallLetter sign = false)
include hletter

/-- No logarithm without parentheses crosses the sign: it would have to be a
letter. -/
theorem splits_bareLog : Splits bareLog sign rest fun _ _ => False := by
  have hstart : sign ∉ ['l', 'o', 'g'] := by
    intro hmem
    have hall : ∀ c ∈ ['l', 'o', 'g'], isSmallLetter c = true := List.all_eq_true.mp (by decide)
    exact absurd (hall sign hmem) (by simp [hletter])
  refine ⟨takes_bareLog.mono fun _ _ _ => trivial, ?_, ?_⟩
  · intro before text _
    rw [bareLog, bareLog, afterStart_append_cons hstart]
    cases afterStart ['l', 'o', 'g'] text with
    | none => rfl
    | some more =>
        cases more with
        | nil => simp [hletter]
        | cons c more => rfl
  · intro before
    refine Or.inl ⟨?_, rfl⟩
    rw [bareLog, ← List.nil_append (sign :: rest), afterStart_append_cons hstart]
    rfl

variable (hopen : sign ≠ '(') (hrest : sign = '+' ∨ rest = [])
include hopen hrest

/-- No letter before a logarithm crosses the sign. -/
theorem splits_factorBeforeLog : Splits factorBeforeLog sign rest fun _ _ => False := by
  have hstart : sign ∉ ['l', 'o', 'g', '('] := by
    intro hmem
    have hall : ∀ c ∈ ['l', 'o', 'g', '('], (isSmallLetter c || c == '(') = true :=
      List.all_eq_true.mp (by decide)
    rcases Bool.or_eq_true_iff.mp (hall sign hmem) with h | h
    · exact absurd h (by simp [hletter])
    · exact hopen (beq_iff_eq.mp h)
  refine ⟨takes_factorBeforeLog.mono fun _ _ _ => trivial, ?_, ?_⟩
  · intro before text hne
    obtain ⟨c, text, rfl⟩ := List.exists_cons_of_ne_nil hne
    simp only [factorBeforeLog, List.cons_append, afterStart_append_cons hstart,
      Option.isSome_map]
  · intro before
    refine Or.inl ⟨?_, rfl⟩
    rcases hrest with rfl | rfl
    · rfl
    · simp [factorBeforeLog, afterStart]

/-- A number before a factor is found in front of the sign without looking at
it. -/
theorem numberBeforeFactor_append (text : List Char) :
    numberBeforeFactor (text ++ sign :: rest) = numberBeforeFactor text := by
  cases hdigit : isDecimalDigit sign with
  | false =>
      -- the digits end at the sign at the latest
      have hstops : Formula.StopsAt isDecimalDigit (sign :: rest) := by
        rintro c ⟨⟩
        exact hdigit
      obtain ⟨htake, hdrop⟩ := Formula.takeWhile_append_of_stopsAt text hstops
      rw [numberBeforeFactor, numberBeforeFactor, htake, hdrop]
      cases text.takeWhile isDecimalDigit with
      | nil => rfl
      | cons d ds =>
          cases text.dropWhile isDecimalDigit with
          | nil => simp [hletter, hopen]
          | cons c more => rfl
  | true =>
      -- a digit at the end of a text stands before no factor
      have hnil : rest = [] := by
        refine hrest.resolve_left ?_
        rintro rfl
        exact absurd hdigit (by decide)
      subst hnil
      rw [numberBeforeFactor, numberBeforeFactor, List.dropWhile_append]
      cases hdrop : text.dropWhile isDecimalDigit with
      | nil =>
          simp only [List.isEmpty_nil, if_true, List.dropWhile_cons_of_pos hdigit,
            List.dropWhile_nil]
          cases (text ++ [sign]).takeWhile isDecimalDigit <;>
          cases text.takeWhile isDecimalDigit <;> rfl
      | cons c more =>
          have hlength : (text.takeWhile isDecimalDigit).length ≠ text.length := by
            have htotal := congrArg List.length
              (List.takeWhile_append_dropWhile (p := isDecimalDigit) (l := text))
            rw [hdrop, List.length_append, List.length_cons] at htotal
            omega
          rw [List.takeWhile_append, if_neg hlength]
          cases text.takeWhile isDecimalDigit <;> rfl

/-- No coefficient crosses the sign.  One that stands behind a plus sign is
found there with the sign, and at the front of a text without it; that is the
one way in which the two searches differ.
-/
theorem splits_coefficientBeforeFactor :
    Splits coefficientBeforeFactor sign rest fun value value' =>
      value = ([sign], value'.2) ∧ value'.1 = [] := by
  have hnumber := numberBeforeFactor_append hletter hopen hrest
  refine ⟨takes_coefficientBeforeFactor.mono fun _ _ _ => trivial, ?_, ?_⟩
  · intro before text hne
    obtain ⟨c, text, rfl⟩ := List.exists_cons_of_ne_nil hne
    have hfirst := hnumber (c :: text)
    rw [List.cons_append] at hfirst
    simp only [coefficientBeforeFactor, List.cons_append, hfirst]
    cases before with
    | none =>
        cases hstart : numberBeforeFactor (c :: text) with
        | none => simp [hnumber text]
        | some found => rfl
    | some b => simp [hnumber text]
  · intro before
    have hfirst : numberBeforeFactor (sign :: rest) = none := hnumber []
    cases hback : numberBeforeFactor rest with
    | none =>
        left
        constructor
        · cases before <;> simp [coefficientBeforeFactor, hfirst, hback]
        · simp [coefficientBeforeFactor, hback]
    | some found =>
        obtain ⟨n, c⟩ := found
        -- something stands behind the sign, so it is a plus sign, which the
        -- pattern takes with the number
        have hplus : sign = '+' := by
          refine hrest.resolve_right ?_
          rintro rfl
          cases hback
        right
        refine ⟨([sign], n, c), ([], n, c), n.length + 1, ⟨rfl, rfl⟩, ?_, ?_⟩
        · have hseparator : isSeparator sign = true := by
            rw [hplus]
            decide
          cases before <;> simp [coefficientBeforeFactor, hfirst, hback, hseparator]
        · simp [coefficientBeforeFactor, hback]

/-- The text in front of a sign and the text behind it are written out one by
one. -/
theorem explicit_append (text : List Char) :
    explicit (text ++ sign :: rest) = explicit text ++ sign :: explicit rest := by
  have hagain : ∀ {α : Type} (pattern : Pattern α) (write : α → List Char) {rest : List Char},
      sign = '+' ∨ rest = [] → sign = '+' ∨ replace pattern write rest = [] := by
    rintro α pattern write rest (hplus | rfl)
    · exact Or.inl hplus
    · exact Or.inr rfl
  have hlog := hagain bareLog (fun c => ['l', 'o', 'g', '(', c, ')']) hrest
  have hfactor := hagain factorBeforeLog (fun c => [c, '*', 'l', 'o', 'g', '(']) hlog
  simp only [explicit]
  rw [(splits_bareLog hletter).replace_append (fun _ _ h => h.elim),
    (splits_factorBeforeLog hletter hopen hlog).replace_append (fun _ _ h => h.elim),
    (splits_coefficientBeforeFactor hletter hopen hfactor).replace_append]
  rintro ⟨s, n, c⟩ ⟨s', n', c'⟩ ⟨heq, rfl⟩
  cases heq
  rfl

end Signs

end Work

/-! ## Terms

A term is found by a pattern and then taken apart again into coefficient, kind
and amount.  Both are described by how a term is written (`TermMatch.Formed`);
the coefficient is the part that takes some care, as its digits may belong to a
number that began earlier in the text. -/

/-- The sign that a reduction is written with. -/
def ReductionKind.sign : ReductionKind → Char
  | .division => '/'
  | .subtraction => '-'

namespace TermMatch

/-- How a coefficient is written: not at all, as a number, or as a number and a
sign. -/
inductive WritesCoefficient : Option (List Char) → List Char → Prop
  | absent : WritesCoefficient none []
  | number {digits : List Char} (hne : digits ≠ [])
      (hdigits : ∀ c ∈ digits, isDecimalDigit c = true) : WritesCoefficient (some digits) digits
  | times {digits : List Char} (hne : digits ≠ [])
      (hdigits : ∀ c ∈ digits, isDecimalDigit c = true) :
      WritesCoefficient (some digits) (digits ++ ['*'])

/-- The text of the term is its coefficient and the reduced size. -/
def Formed (m : TermMatch) : Prop :=
  m.amount ≠ [] ∧ (∀ c ∈ m.amount, isDecimalDigit c = true) ∧
    ∃ front, WritesCoefficient m.coefficient? front ∧
      m.body = front ++ 't' :: '(' :: 'n' :: m.kind.sign :: (m.amount ++ [')'])

/-- A coefficient does not matter for the nesting. -/
theorem WritesCoefficient.isLevel {coefficient? : Option (List Char)} {front : List Char}
    (h : WritesCoefficient coefficient? front) : ∀ c ∈ front, isLevel c = true := by
  cases h with
  | absent => exact fun c hc => by cases hc
  | number _ hdigits => exact fun c hc => Work.isLevel_of_isDecimalDigit (hdigits c hc)
  | times _ hdigits =>
      intro c hc
      rcases List.mem_append.mp hc with hc | hc
      · exact Work.isLevel_of_isDecimalDigit (hdigits c hc)
      · rw [List.mem_singleton.mp hc]
        decide

/-- Digits are taken up to the first character that is none. -/
theorem span_digits {digits : List Char} {c : Char}
    (hdigits : ∀ d ∈ digits, isDecimalDigit d = true) (hc : isDecimalDigit c = false)
    (tail : List Char) :
    (digits ++ c :: tail).takeWhile isDecimalDigit = digits ∧
      (digits ++ c :: tail).dropWhile isDecimalDigit = c :: tail := by
  have hneg : ¬isDecimalDigit c = true := by simp [hc]
  rw [List.takeWhile_append_of_pos hdigits, List.dropWhile_append_of_pos hdigits,
    List.takeWhile_cons_of_neg hneg, List.dropWhile_cons_of_neg hneg, List.append_nil]
  exact ⟨rfl, rfl⟩

/-- A reduced size is just the size, the sign of the reduction, and the digits
of the amount. -/
theorem size?_eq_some_iff {inner amount tail : List Char} {kind : ReductionKind} :
    size? inner = some ((kind, amount), ')' :: tail) ↔
      amount ≠ [] ∧ (∀ c ∈ amount, isDecimalDigit c = true) ∧
        inner = 'n' :: kind.sign :: (amount ++ ')' :: tail) := by
  constructor
  · intro h
    unfold size? at h
    split at h
    · next sign rest =>
        have hrest := List.takeWhile_append_dropWhile (p := isDecimalDigit) (l := rest)
        obtain ⟨hne, h⟩ := Option.ite_none_left_eq_some.mp h
        rw [List.isEmpty_iff] at hne
        split at h
        · next hsign =>
            simp only [Option.some.injEq, Prod.mk.injEq] at h
            obtain ⟨⟨rfl, rfl⟩, hdrop⟩ := h
            refine ⟨hne, fun c hc => List.mem_takeWhile_imp hc, ?_⟩
            rw [← hdrop, hrest, beq_iff_eq.mp hsign]
            rfl
        · obtain ⟨hsign, h⟩ := Option.ite_none_right_eq_some.mp h
          simp only [Option.some.injEq, Prod.mk.injEq] at h
          obtain ⟨⟨rfl, rfl⟩, hdrop⟩ := h
          refine ⟨hne, fun c hc => List.mem_takeWhile_imp hc, ?_⟩
          rw [← hdrop, hrest, beq_iff_eq.mp hsign]
          rfl
    · cases h
  -- the digits end at the parenthesis
  · rintro ⟨hne, hdigits, rfl⟩
    obtain ⟨htake, hdrop⟩ := span_digits hdigits (c := ')') (by decide) tail
    cases kind <;> simp [size?, ReductionKind.sign, htake, hdrop, hne]

/-- The digits of a coefficient, where there is one, and what follows it. -/
def coefficientOf (text : List Char) : Option (List Char) × List Char :=
  let digits := text.takeWhile isDecimalDigit
  if digits.isEmpty then (none, text)
  else (some digits, afterTimes (text.dropWhile isDecimalDigit))

/-- A term is its coefficient, the name, and the reduced size in parentheses. -/
theorem body?_eq (lead text : List Char) :
    body? lead text =
      match (coefficientOf text).2 with
      | 't' :: '(' :: inner =>
        match size? inner with
        | some ((kind, amount), ')' :: tail) =>
          some {
            lead
            coefficient? := (coefficientOf text).1
            kind
            amount
            body := text.take (text.length - tail.length) }
        | _ => none
      | _ => none := by
  dsimp only [body?, coefficientOf]
  cases (text.takeWhile isDecimalDigit).isEmpty with
  | true => rfl
  | false => rfl

/-- A text begins with the coefficient that is found in it, as it may be
written. -/
theorem exists_of_coefficientOf (text : List Char) :
    ∃ front, WritesCoefficient (coefficientOf text).1 front ∧
      text = front ++ (coefficientOf text).2 := by
  have htext := List.takeWhile_append_dropWhile (p := isDecimalDigit) (l := text)
  have hdigits : ∀ c ∈ text.takeWhile isDecimalDigit, isDecimalDigit c = true :=
    fun c hc => List.mem_takeWhile_imp hc
  simp only [coefficientOf]
  split
  · exact ⟨[], .absent, rfl⟩
  · next hne =>
      rw [List.isEmpty_iff] at hne
      cases hdrop : text.dropWhile isDecimalDigit with
      | nil =>
          rw [hdrop] at htext
          exact ⟨_, .number hne hdigits, htext.symm⟩
      | cons c rest =>
          rw [hdrop] at htext
          -- a sign behind the digits belongs to the coefficient
          by_cases hc : c = '*'
          · subst hc
            refine ⟨_, .times hne hdigits, ?_⟩
            rw [List.append_assoc]
            exact htext.symm
          · refine ⟨_, .number hne hdigits, ?_⟩
            have hafter : afterTimes (c :: rest) = c :: rest := by
              unfold afterTimes
              split
              · next heq => exact absurd (List.cons.inj heq).1 hc
              · rfl
            rw [hafter, htext]

/-- A coefficient that is written before the name is found, and nothing more. -/
theorem coefficientOf_append {coefficient? : Option (List Char)} {front : List Char}
    (h : WritesCoefficient coefficient? front) (rest : List Char) :
    coefficientOf (front ++ 't' :: rest) = (coefficient?, 't' :: rest) := by
  cases h with
  | absent => rfl
  | number hne hdigits =>
      obtain ⟨htake, hdrop⟩ := span_digits hdigits (c := 't') (by decide) rest
      simp [coefficientOf, htake, hdrop, hne, afterTimes]
  | @times digits hne hdigits =>
      obtain ⟨htake, hdrop⟩ := span_digits hdigits (c := '*') (by decide) ('t' :: rest)
      rw [List.append_assoc, List.singleton_append]
      simp [coefficientOf, htake, hdrop, hne, afterTimes]

/-- **What a term is**: its coefficient and the reduced size, at the start of
the text. -/
theorem body?_eq_some_iff {lead text : List Char} {m : TermMatch} :
    body? lead text = some m ↔ m.lead = lead ∧ m.Formed ∧ m.body <+: text := by
  constructor
  · intro h
    rw [body?_eq] at h
    obtain ⟨front, hfront, htext⟩ := exists_of_coefficientOf text
    split at h
    · next inner hinner =>
        split at h
        · next kind amount tail hsize =>
            obtain ⟨hne, hdigits, rfl⟩ := size?_eq_some_iff.mp hsize
            cases h
            have hbody : text = (front ++ 't' :: '(' :: 'n' :: kind.sign :: (amount ++ [')'])) ++
                tail := by
              rw [htext, hinner]
              simp
            -- what is matched is all that comes before the rest
            have htake : text.take (text.length - tail.length) =
                front ++ 't' :: '(' :: 'n' :: kind.sign :: (amount ++ [')']) := by
              rw [hbody]
              exact List.take_left' (by simp; omega)
            refine ⟨rfl, ⟨hne, hdigits, front, hfront, htake⟩, ?_⟩
            exact List.take_prefix _ _
        · cases h
    · cases h
  · rintro ⟨rfl, ⟨hne, hdigits, front, hfront, hbody⟩, tail, rfl⟩
    have hsize : size? ('n' :: m.kind.sign :: (m.amount ++ ')' :: tail)) =
        some ((m.kind, m.amount), ')' :: tail) := size?_eq_some_iff.mpr ⟨hne, hdigits, rfl⟩
    have htext : m.body ++ tail =
        front ++ 't' :: '(' :: 'n' :: m.kind.sign :: (m.amount ++ ')' :: tail) := by
      rw [hbody]
      simp
    -- the coefficient is found again in front of the name
    have hcoefficient := coefficientOf_append hfront
      ('(' :: 'n' :: m.kind.sign :: (m.amount ++ ')' :: tail))
    rw [body?_eq, htext, hcoefficient]
    simp only [hsize]
    rw [← htext, List.take_left' (by simp)]

/-- A term has its parentheses in pairs, and no plus sign outside of them. -/
theorem Formed.undivided {m : TermMatch} (h : m.Formed) : Undivided m.body := by
  obtain ⟨-, hamount, front, hfront, hbody⟩ := h
  have hsize : Balanced ('n' :: m.kind.sign :: m.amount) := by
    refine (undivided_of_isLevel fun c hc => ?_).balanced
    simp only [List.mem_cons] at hc
    rcases hc with rfl | rfl | hc
    · decide
    · cases m.kind <;> decide
    · exact Work.isLevel_of_isDecimalDigit (hamount c hc)
  rw [hbody]
  exact (undivided_of_isLevel hfront.isLevel).append (hsize.undivided.cons (by decide))

/-- A term is taken with the character before it. -/
theorem takes_pattern : pattern.Takes fun m taken => taken = m.lead ++ m.body ∧ m.Formed := by
  intro before text m length h
  -- a term that was found takes its separator and its text
  have hsized : ∀ {lead rest : List Char}, text = lead ++ rest → body? lead rest = some m →
      length = m.lead.length + m.body.length →
      ∃ taken more, text = taken ++ more ∧ length = taken.length ∧ taken ≠ [] ∧
        taken = m.lead ++ m.body ∧ m.Formed := by
    intro lead rest htext hbody hlength
    obtain ⟨rfl, hformed, more, rfl⟩ := body?_eq_some_iff.mp hbody
    refine ⟨m.lead ++ m.body, more, ?_, ?_, ?_, rfl, hformed⟩
    · rw [htext, List.append_assoc]
    · rw [hlength, List.length_append]
    · obtain ⟨-, -, front, -, heq⟩ := hformed
      rw [heq]
      simp
  simp only [pattern] at h
  split at h
  · next m' hstart =>
      cases h
      obtain ⟨-, hstart⟩ := Option.ite_none_right_eq_some.mp hstart
      exact hsized rfl hstart rfl
  · next s rest hstart =>
      obtain ⟨-, h⟩ := Option.ite_none_right_eq_some.mp h
      obtain ⟨m', hbody, heq⟩ := Option.map_eq_some_iff.mp h
      cases heq
      exact hsized rfl hbody rfl
  · cases h

/-- Only a term at the start of a text has no separator before it. -/
theorem lead_of_pattern {before : Option Char} {text : List Char} {m : TermMatch} {length : ℕ}
    (h : pattern before text = some (m, length)) :
    before = none ∧ m.lead = [] ∨ ∃ c, m.lead = [c] := by
  simp only [pattern] at h
  split at h
  · next m' hstart =>
      cases h
      obtain ⟨hbefore, hstart⟩ := Option.ite_none_right_eq_some.mp hstart
      exact Or.inl ⟨Option.isNone_iff_eq_none.mp hbefore, (body?_eq_some_iff.mp hstart).1⟩
  · next s rest hstart =>
      obtain ⟨-, h⟩ := Option.ite_none_right_eq_some.mp h
      obtain ⟨m', hbody, heq⟩ := Option.map_eq_some_iff.mp h
      cases heq
      exact Or.inr ⟨s, (body?_eq_some_iff.mp hbody).1⟩
  · cases h

/-- Whether a text begins with something is not decided behind a character that
does not occur in it. -/
theorem prefix_append_cons_iff {body text rest : List Char} {c : Char} (hc : c ∉ body) :
    body <+: text ++ c :: rest ↔ body <+: text := by
  refine ⟨?_, fun h => h.trans (List.prefix_append _ _)⟩
  rintro ⟨more, h⟩
  rcases List.append_eq_append_iff.mp h with ⟨z, hz, -⟩ | ⟨z, hz, hrest⟩
  · exact ⟨z, hz.symm⟩
  · cases z with
    | nil => exact ⟨[], by rw [hz, List.append_nil, List.append_nil]⟩
    | cons d z =>
        cases hrest
        exact absurd (by rw [hz]; simp) hc

/-- No plus sign stands in a term, not even within its parentheses. -/
theorem Formed.plus_not_mem {m : TermMatch} (h : m.Formed) : '+' ∉ m.body := by
  obtain ⟨-, hamount, front, hfront, hbody⟩ := h
  have hsign : '+' ≠ m.kind.sign := by cases m.kind <;> decide
  have hplus : isLevel '+' = false := by decide
  rw [hbody]
  intro hmem
  simp [hsign] at hmem
  rcases hmem with hmem | hmem
  · exact absurd (hfront.isLevel _ hmem) (by simp [hplus])
  · exact absurd (Work.isLevel_of_isDecimalDigit (hamount _ hmem)) (by simp [hplus])

/-- A term is found in front of a plus sign without looking at it. -/
theorem body?_append (lead text rest : List Char) :
    body? lead (text ++ '+' :: rest) = body? lead text := by
  refine Option.ext fun m => ?_
  rw [body?_eq_some_iff, body?_eq_some_iff]
  constructor
  · rintro ⟨hlead, hformed, hprefix⟩
    exact ⟨hlead, hformed, (prefix_append_cons_iff hformed.plus_not_mem).mp hprefix⟩
  · rintro ⟨hlead, hformed, hprefix⟩
    exact ⟨hlead, hformed, (prefix_append_cons_iff hformed.plus_not_mem).mpr hprefix⟩

/-- **No term crosses a plus sign**, and one behind it is found there with the
sign as what leads it. -/
theorem splits_pattern (rest : List Char) :
    Splits pattern '+' rest fun m m' => m = { m' with lead := ['+'] } ∧ m'.lead = [] := by
  refine ⟨takes_pattern.mono fun _ _ _ => trivial, ?_, ?_⟩
  · intro before text hne
    obtain ⟨c, text, rfl⟩ := List.exists_cons_of_ne_nil hne
    have hfirst := body?_append [] (c :: text) rest
    rw [List.cons_append] at hfirst
    simp only [pattern, List.cons_append, hfirst]
    cases before with
    | none =>
        cases hstart : body? [] (c :: text) with
        | none => simp [body?_append]
        | some m => rfl
    | some b => simp [body?_append]
  · intro before
    have hfirst : body? [] ('+' :: rest) = none := body?_append [] [] rest
    have hseparator : Work.isSeparator '+' = true := by decide
    cases hback : body? [] rest with
    | none =>
        -- a term behind the sign would be one at the front of the rest
        have hnone : body? ['+'] rest = none := by
          refine Option.eq_none_iff_forall_ne_some.mpr fun m hm => ?_
          obtain ⟨-, hformed, hprefix⟩ := body?_eq_some_iff.mp hm
          have hmatch : body? [] rest = some { m with lead := [] } :=
            body?_eq_some_iff.mpr ⟨rfl, hformed, hprefix⟩
          rw [hback] at hmatch
          cases hmatch
        left
        constructor
        · cases before <;> simp [pattern, hfirst, hnone]
        · simp [pattern, hback]
    | some m =>
        obtain ⟨hlead, hformed, hprefix⟩ := body?_eq_some_iff.mp hback
        have hmatch : body? ['+'] rest = some { m with lead := ['+'] } :=
          body?_eq_some_iff.mpr ⟨rfl, hformed, hprefix⟩
        right
        refine ⟨{ m with lead := ['+'] }, m, m.body.length, ⟨rfl, hlead⟩, ?_, ?_⟩
        · cases before <;> simp [pattern, hfirst, hmatch, hseparator, Nat.add_comm]
        · simp [pattern, hback, hlead]

end TermMatch

/-! ## Plus signs

A term that is cut out leaves its sign behind, so runs of plus signs arise, and
signs at the ends.  `tidy` stands for the merging and the trimming together, and
addends that are not empty and begin and end with other characters are kept by
it (`Bare`). -/

namespace WrittenRecurrence

/-- A text without plus signs in a row and at its ends. -/
def tidy (text : List Char) : List Char :=
  trimWhile (· == '+') (mergePluses text)

/-- What is left of a right side are its addends without terms, tidied up. -/
theorem remainder_eq_tidy (right : List Char) :
    remainder right = tidy (replace TermMatch.pattern TermMatch.lead right) := rfl

/-- Neither the first nor the last character of the text is a plus sign. -/
def Bare (text : List Char) : Prop :=
  text.head? ≠ some '+' ∧ text.getLast? ≠ some '+'

variable {text rest : List Char}

/-- A text with no plus sign outside of its parentheses has none at its ends. -/
theorem bare_of_undivided (h : Undivided text) : Bare text := by
  constructor
  · intro hhead
    obtain ⟨rest, rfl⟩ : ∃ rest, text = '+' :: rest := List.head?_eq_some_iff.mp hhead
    cases h
  · intro hlast
    obtain ⟨front, rfl⟩ : ∃ front, text = front ++ ['+'] := List.getLast?_eq_some_iff.mp hlast
    rw [Undivided, depthAfter_append] at h
    obtain ⟨d, -, hplus⟩ := Option.bind_eq_some_iff.mp h
    cases d with
    | zero => cases hplus
    | succ d => cases hplus

theorem mergePluses_cons (c : Char) (text : List Char) : mergePluses (c :: text) =
    if c == '+' && text.head? == some '+' then mergePluses text else c :: mergePluses text := rfl

/-- Merging keeps the first character. -/
@[simp] theorem head?_mergePluses (text : List Char) : (mergePluses text).head? = text.head? := by
  induction text with
  | nil => rfl
  | cons c text ih =>
      rw [mergePluses]
      split
      · next h =>
          obtain ⟨hc, hhead⟩ := Bool.and_eq_true_iff.mp h
          rw [ih, beq_iff_eq.mp hhead, beq_iff_eq.mp hc]
          rfl
      · rfl

theorem mergePluses_eq_nil_iff : mergePluses text = [] ↔ text = [] := by
  rw [← List.head?_eq_none_iff, head?_mergePluses, List.head?_eq_none_iff]

/-- And it keeps the last character. -/
@[simp] theorem getLast?_mergePluses (text : List Char) :
    (mergePluses text).getLast? = text.getLast? := by
  induction text with
  | nil => rfl
  | cons c text ih =>
      rw [mergePluses]
      split
      · next h =>
          obtain ⟨-, hhead⟩ := Bool.and_eq_true_iff.mp h
          obtain ⟨rest, rfl⟩ := List.head?_eq_some_iff.mp (beq_iff_eq.mp hhead)
          rw [ih]
          rfl
      · rw [List.getLast?_cons, List.getLast?_cons, ih]

/-- Two texts are merged one by one unless a plus sign ends the first and begins
the second. -/
theorem mergePluses_append (h : text.getLast? ≠ some '+') :
    mergePluses (text ++ rest) = mergePluses text ++ mergePluses rest := by
  induction text with
  | nil => rfl
  | cons c text ih =>
      cases text with
      | nil =>
          -- a plus sign at the end of the front would be merged with one behind
          -- it
          have hc : c ≠ '+' := by
            rintro rfl
            exact h rfl
          simp [mergePluses, hc]
      | cons d text =>
          have hih := ih (by simpa using h)
          rw [List.cons_append] at hih
          rw [List.cons_append, List.cons_append, mergePluses_cons, mergePluses_cons c, hih,
            List.head?_cons, List.head?_cons]
          split
          · rfl
          · rfl

/-- A text that begins otherwise has no plus signs to drop. -/
theorem dropWhile_plus (h : text.head? ≠ some '+') : text.dropWhile (· == '+') = text := by
  cases text with
  | nil => rfl
  | cons c text =>
      have hc : c ≠ '+' := by
        rintro rfl
        exact h rfl
      exact List.dropWhile_cons_of_neg (by simpa using hc)

/-- A plus sign at the front takes all that follow it. -/
theorem mergePluses_plus (text : List Char) :
    mergePluses ('+' :: text) = '+' :: (mergePluses text).dropWhile (· == '+') := by
  induction text with
  | nil => rfl
  | cons c text ih =>
      by_cases hc : c = '+'
      · subst hc
        have hmerge : mergePluses ('+' :: '+' :: text) = mergePluses ('+' :: text) := rfl
        rw [hmerge, ih, List.dropWhile_cons_of_pos (by rfl), List.dropWhile_idempotent]
      · have hhead : (c :: text).head? ≠ some '+' := by simpa using hc
        rw [dropWhile_plus (by rwa [head?_mergePluses])]
        rw [mergePluses, if_neg (by simpa using hc)]

/-- What is dropped at the end of two texts is dropped in the first one only if
nothing of the second one is left. -/
theorem dropRightWhile_append (p : Char → Bool) (text rest : List Char) :
    dropRightWhile p (text ++ rest) =
      if dropRightWhile p rest = [] then dropRightWhile p text
      else text ++ dropRightWhile p rest := by
  simp only [dropRightWhile, List.reverse_append, List.dropWhile_append, List.reverse_eq_nil_iff,
    List.isEmpty_iff]
  split
  · rfl
  · simp

/-- A text that ends otherwise has nothing to drop at its end. -/
theorem dropRightWhile_of_getLast? {p : Char → Bool} (h : ∀ c ∈ text.getLast?, p c = false) :
    dropRightWhile p text = text := by
  refine List.rdropWhile_eq_self_iff.mpr fun hne => ?_
  simp [h _ (List.getLast?_eq_some_getLast hne)]

/-- A plus sign at the front is trimmed. -/
theorem tidy_plus (text : List Char) : tidy ('+' :: text) = tidy text := by
  rw [tidy, tidy, trimWhile, trimWhile, mergePluses_plus, List.dropWhile_cons_of_pos (by rfl),
    List.dropWhile_idempotent]

/-- A text without plus signs at its ends has none after merging. -/
theorem Bare.dropRightWhile_mergePluses (h : Bare text) :
    dropRightWhile (· == '+') (mergePluses text) = mergePluses text := by
  refine dropRightWhile_of_getLast? fun c hc => ?_
  rw [getLast?_mergePluses] at hc
  rw [beq_eq_false_iff_ne]
  rintro rfl
  exact h.2 hc

/-- A text without plus signs at its ends is tidied by merging alone. -/
theorem tidy_of_bare (h : Bare text) : tidy text = mergePluses text := by
  rw [tidy, trimWhile, dropWhile_plus (by rw [head?_mergePluses]; exact h.1),
    h.dropRightWhile_mergePluses]

/-- A text that is not to be trimmed keeps its place in front of a tidied
text. -/
theorem tidy_append (htext : Bare text) (hne : text ≠ []) (rest : List Char) :
    tidy (text ++ '+' :: rest) =
      if tidy rest = [] then mergePluses text else mergePluses text ++ '+' :: tidy rest := by
  have hhead : (mergePluses text ++ mergePluses ('+' :: rest)).head? ≠ some '+' := by
    rw [List.head?_append_of_ne_nil _ (mt mergePluses_eq_nil_iff.mp hne), head?_mergePluses]
    exact htext.1
  have hback : dropRightWhile (· == '+') (mergePluses ('+' :: rest)) =
      if tidy rest = [] then [] else '+' :: tidy rest := by
    rw [mergePluses_plus, ← List.singleton_append, dropRightWhile_append]
    rfl
  rw [tidy, trimWhile, mergePluses_append htext.2, dropWhile_plus hhead, dropRightWhile_append,
    hback, htext.dropRightWhile_mergePluses]
  by_cases hrest : tidy rest = []
  · simp only [hrest, if_true]
  · simp only [hrest, if_false, List.cons_ne_nil]

/-- Plus signs do not matter for the nesting, where they are allowed. -/
theorem depthAfter_pluses {plus : List Char} (h : ∀ c ∈ plus, c = '+') (depth : ℕ) :
    depthAfter true depth plus = some depth := by
  induction plus with
  | nil => rfl
  | cons c plus ih =>
      rw [h c List.mem_cons_self, depthAfter_cons, depthStep_plus]
      exact ih fun d hd => h d (List.mem_cons_of_mem _ hd)

/-- Tidying keeps the nesting. -/
theorem depthAfter_tidy (depth : ℕ) (text : List Char) :
    depthAfter true depth (tidy text) = depthAfter true depth text := by
  -- merging, trimming on the left and trimming on the right only take out plus
  -- signs
  have hmerge : ∀ (text : List Char) (depth : ℕ),
      depthAfter true depth (mergePluses text) = depthAfter true depth text := by
    intro text
    induction text with
    | nil => exact fun _ => rfl
    | cons c text ih =>
        intro depth
        rw [mergePluses_cons]
        split
        · next h =>
            rw [ih, beq_iff_eq.mp (Bool.and_eq_true_iff.mp h).1, depthAfter_cons, depthStep_plus,
              Option.bind_some]
        · simp only [depthAfter_cons, ih]
  have hleft : ∀ text : List Char, depthAfter true depth (text.dropWhile (· == '+')) =
      depthAfter true depth text := by
    intro text
    have htext := List.takeWhile_append_dropWhile (p := (· == '+')) (l := text)
    have hpluses : ∀ c ∈ text.takeWhile (· == '+'), c = '+' :=
      fun c hc => beq_iff_eq.mp (List.mem_takeWhile_imp (p := (· == '+')) hc)
    conv_rhs => rw [← htext, depthAfter_append, depthAfter_pluses hpluses, Option.bind_some]
  have hright : ∀ text : List Char, depthAfter true depth (dropRightWhile (· == '+') text) =
      depthAfter true depth text := by
    intro text
    have htext : dropRightWhile (· == '+') text ++ (text.reverse.takeWhile (· == '+')).reverse =
        text := by
      rw [dropRightWhile, ← List.reverse_append, List.takeWhile_append_dropWhile,
        List.reverse_reverse]
    have hpluses : ∀ c ∈ (text.reverse.takeWhile (· == '+')).reverse, c = '+' :=
      fun c hc => beq_iff_eq.mp (List.mem_takeWhile_imp (p := (· == '+')) (List.mem_reverse.mp hc))
    conv_rhs => rw [← htext, depthAfter_append]
    simp [depthAfter_pluses hpluses]
  rw [tidy, trimWhile, hright, hleft, hmerge]

end WrittenRecurrence

end CostAnalysis
