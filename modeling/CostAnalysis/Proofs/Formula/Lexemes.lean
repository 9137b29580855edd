import CostAnalysis.Proofs.Formula.Canonical
import Mathlib.Data.List.TakeWhile

/-!
# The lexemes of formulas

What the reader makes of the smallest parts of a text: names, numbers and opaque
fragments.  Each statement is about a part with something behind it, since that
is how the reader meets it, and says that the part is read and the rest is left.

For that the rest must not go on with the part.  `MayFollow k rest` says so of
what stands behind a formula whose text binds with strength `k`: it may be the
end of the text or of an argument, or begin with an operator that binds less,
with any blanks before it.  It is the counterpart of `precedence`: an operand is
put in parentheses exactly where what follows it would be read with it.

**Stretches.**  Names, numerals and blanks are read as long as characters of a
class follow.  So a lexeme is read from its text if and only if what stands
behind begins with another character (`StopsAt`), and this is the form in which
all hypotheses about the rest are put.
-/

namespace CostAnalysis.Formula

open Reader Text

/-! ## What may follow

The strengths are those of the printer: one for a sum, two and three for a
product and a signed power, four for an atom.  What may follow a weak formula
may follow a strong one. -/

/-- The first character of a text, if there is one, is not of the given
class. -/
def StopsAt (p : Char → Bool) (cs : List Char) : Prop :=
  ∀ c ∈ cs.head?, p c = false

/-- A character that is not of the class stops it. -/
theorem stopsAt_cons {p : Char → Bool} {c : Char} (hc : p c = false) (cs : List Char) :
    StopsAt p (c :: cs) := by
  intro d hd
  cases hd
  exact hc

/-- What may stand behind a formula of binding strength `k`: what begins with it
is not read with the formula. -/
structure MayFollow (k : ℕ) (rest : List Char) : Prop where
  /-- A name or a number does not go on. -/
  stopsAt : StopsAt isNamePart rest
  /-- A name is not followed by a list of arguments. -/
  symbol_open : symbol '(' rest = none
  powerSign_of_le : k ≤ 3 → powerSign rest = none
  productSign_of_le : k ≤ 2 → productSign rest = none
  sumSign_of_le : k ≤ 1 → sumSign rest = none

namespace MayFollow

variable {k l : ℕ} {rest : List Char}

/-- What may follow a formula may follow one that binds more. -/
theorem mono (h : MayFollow k rest) (hkl : k ≤ l) : MayFollow l rest :=
  ⟨h.stopsAt, h.symbol_open, fun hl => h.powerSign_of_le (hkl.trans hl),
    fun hl => h.productSign_of_le (hkl.trans hl), fun hl => h.sumSign_of_le (hkl.trans hl)⟩

theorem nil : MayFollow k [] :=
  ⟨nofun, rfl, fun _ => rfl, fun _ => rfl, fun _ => rfl⟩

theorem close (rest : List Char) : MayFollow k (')' :: rest) :=
  ⟨stopsAt_cons (by decide) rest, rfl, fun _ => rfl, fun _ => rfl, fun _ => rfl⟩

theorem comma (rest : List Char) : MayFollow k (',' :: rest) :=
  ⟨stopsAt_cons (by decide) rest, rfl, fun _ => rfl, fun _ => rfl, fun _ => rfl⟩

theorem plusSign (rest : List Char) (h : 1 < k) : MayFollow k ('+' :: rest) :=
  ⟨stopsAt_cons (by decide) rest, rfl, fun _ => rfl, fun _ => rfl, fun hk => absurd hk h.not_ge⟩

theorem minusSign (rest : List Char) (h : 1 < k) : MayFollow k ('-' :: rest) :=
  ⟨stopsAt_cons (by decide) rest, rfl, fun _ => rfl, fun _ => rfl, fun hk => absurd hk h.not_ge⟩

/-- A star that is the sign of a product. -/
theorem star (rest : List Char) (h : 2 < k) (hrest : rest.head? ≠ some '*') :
    MayFollow k ('*' :: rest) := by
  refine ⟨stopsAt_cons (by decide) rest, rfl, fun _ => ?_, fun hk => by omega, fun hk => by omega⟩
  cases rest with
  | nil => rfl
  | cons c rest =>
      have hc : c ≠ '*' := fun heq => hrest (by rw [heq]; rfl)
      simp [powerSign, skip, isSpace, hc]

theorem slash (rest : List Char) (h : 2 < k) : MayFollow k ('/' :: rest) :=
  ⟨stopsAt_cons (by decide) rest, rfl, fun _ => rfl, fun hk => by omega, fun hk => by omega⟩

theorem stars (rest : List Char) (h : 3 < k) : MayFollow k ('*' :: '*' :: rest) :=
  ⟨stopsAt_cons (by decide) _, rfl, fun hk => by omega, fun hk => by omega, fun hk => by omega⟩

theorem caret (rest : List Char) (h : 3 < k) : MayFollow k ('^' :: rest) :=
  ⟨stopsAt_cons (by decide) rest, rfl, fun hk => by omega, fun hk => by omega, fun hk => by omega⟩

end MayFollow

variable {k : ℕ} {rest : List Char}

/-! ## Blanks -/

/-- Where no blank stands none is passed. -/
theorem skip_of_stopsAt {cs : List Char} (h : StopsAt isSpace cs) : skip cs = cs := by
  cases cs with
  | nil => rfl
  | cons c cs => simp [skip, h c rfl]

/-- Passing blanks twice passes no more. -/
@[simp] theorem skip_skip (cs : List Char) : skip (skip cs) = skip cs := by
  refine skip_of_stopsAt fun c hc => ?_
  have hhead := List.head?_dropWhile_not isSpace cs
  rw [skip] at hc
  rwa [hc] at hhead

/-- A symbol is read with the blanks behind it. -/
theorem symbol_cons {c : Char} (hc : isSpace c = false) (cs : List Char) :
    symbol c (c :: cs) = some (skip cs) := by
  simp [symbol, skip, char, hc]

theorem length_skip_le (cs : List Char) : (skip cs).length ≤ cs.length :=
  (List.dropWhile_suffix isSpace).length_le

theorem skip_cons {c : Char} (hc : isSpace c = true) (cs : List Char) :
    skip (c :: cs) = skip cs := by
  simp [skip, hc]

/-- Nothing but blanks. -/
def IsBlanks (cs : List Char) : Prop :=
  ∀ c ∈ cs, isSpace c = true

theorem isBlanks_nil : IsBlanks [] := nofun

theorem IsBlanks.append {b b' : List Char} (hb : IsBlanks b) (hb' : IsBlanks b') :
    IsBlanks (b ++ b') :=
  List.forall_mem_append.mpr ⟨hb, hb'⟩

theorem isBlanks_singleton : IsBlanks [' '] :=
  List.forall_mem_singleton.mpr rfl

section Blanks

variable {b : List Char} (hb : IsBlanks b)
include hb

theorem skip_blanks (cs : List Char) : skip (b ++ cs) = skip cs :=
  List.dropWhile_append_of_pos hb

theorem symbol_blanks (c : Char) (cs : List Char) : symbol c (b ++ cs) = symbol c cs := by
  rw [symbol, symbol, skip_blanks hb]

end Blanks

/-- What is passed are blanks. -/
theorem exists_skip (cs : List Char) : ∃ b, IsBlanks b ∧ cs = b ++ skip cs :=
  ⟨cs.takeWhile isSpace, fun _ hc => List.mem_takeWhile_imp hc,
    List.takeWhile_append_dropWhile.symm⟩

namespace MayFollow

/-- No sign of a sum follows a sum. -/
theorem sumSign (h : MayFollow 1 rest) : sumSign (skip rest) = none := by
  simpa [Reader.sumSign] using h.sumSign_of_le le_rfl

/-- No sign of a product follows a product. -/
theorem productSign (h : MayFollow 2 rest) : productSign (skip rest) = none := by
  simpa [Reader.productSign] using h.productSign_of_le le_rfl

/-- No sign of a power follows a power. -/
theorem powerSign (h : MayFollow 3 rest) : powerSign (skip rest) = none := by
  simpa [Reader.powerSign] using h.powerSign_of_le le_rfl

/-- What may follow, may follow behind a blank. -/
theorem blank (h : MayFollow k rest) {c : Char} (hc : isSpace c = true) :
    MayFollow k (c :: rest) := by
  have hpart : isNamePart c = false := by
    simp only [isSpace, Bool.or_eq_true, beq_iff_eq] at hc
    rcases hc with ((rfl | rfl) | rfl) | rfl <;> decide
  refine ⟨stopsAt_cons hpart rest, ?_, fun hk => ?_, fun hk => ?_, fun hk => ?_⟩
  · simpa [symbol, skip_cons hc] using h.symbol_open
  · simpa [Reader.powerSign, skip_cons hc] using h.powerSign_of_le hk
  · simpa [Reader.productSign, skip_cons hc] using h.productSign_of_le hk
  · simpa [Reader.sumSign, skip_cons hc] using h.sumSign_of_le hk

/-- Blanks do not matter for what may follow. -/
theorem blanks {b : List Char} (h : MayFollow k rest) (hb : IsBlanks b) :
    MayFollow k (b ++ rest) := by
  induction b with
  | nil => exact h
  | cons c b ih =>
      obtain ⟨hc, hb⟩ := List.forall_mem_cons.mp hb
      exact (ih hb).blank hc

end MayFollow

/-! ## Names

A name is a stretch of letters, numerals, underscores and points.  It ends where
the stretch ends, so a reader that looks for a given name has to look at the
character behind it, too. -/

/-- A stretch of a class ends where the class stops. -/
theorem takeWhile_append_of_stopsAt {p : Char → Bool} (cs : List Char) (h : StopsAt p rest) :
    (cs ++ rest).takeWhile p = cs.takeWhile p ∧
      (cs ++ rest).dropWhile p = cs.dropWhile p ++ rest := by
  induction cs with
  | nil =>
      cases rest with
      | nil => exact ⟨rfl, rfl⟩
      | cons c rest => simp [h c rfl]
  | cons c cs ih =>
      cases hc : p c with
      | false => simp [hc]
      | true => simp [hc, ih.1, ih.2]

/-- What begins a name may stand in one. -/
theorem isNamePart_of_isNameStart {c : Char} (h : isNameStart c = true) : isNamePart c = true := by
  simp only [isNameStart, Bool.or_eq_true] at h
  simp only [isNamePart, isAlphanumeric, Bool.or_eq_true]
  rcases h with h | h
  · exact Or.inl (Or.inl (Or.inl h))
  · exact Or.inl (Or.inr h)

/-- All characters of a name may stand in one. -/
theorem IsName.all {cs : List Char} (h : IsName cs) : ∀ c ∈ cs, isNamePart c = true := by
  obtain ⟨c, rest, rfl, hc, hrest⟩ := h
  intro d hd
  rcases List.mem_cons.mp hd with rfl | hd
  · exact isNamePart_of_isNameStart hc
  · exact List.all_eq_true.mp hrest d hd

/-- A name is read up to its end. -/
theorem name_append {cs : List Char} (hcs : IsName cs) (hrest : StopsAt isNamePart rest) :
    name (cs ++ rest) = some (cs, rest) := by
  have hstart : StopsAt isNameStart rest := by
    intro c hc
    by_contra hstart
    rw [Bool.not_eq_false] at hstart
    exact absurd (isNamePart_of_isNameStart hstart) (by simp [hrest c hc])
  have hlater : ∀ c ∈ cs.dropWhile isNameStart, isNamePart c = true :=
    fun c hc => hcs.all c ((List.dropWhile_suffix _).mem hc)
  obtain ⟨c, more, rfl, hc, -⟩ := hcs
  rw [name, (takeWhile_append_of_stopsAt _ hstart).1, (takeWhile_append_of_stopsAt _ hstart).2]
  have hnil : rest.takeWhile isNamePart = [] ∧ rest.dropWhile isNamePart = rest := by
    simpa using takeWhile_append_of_stopsAt [] hrest
  have hwhole := List.takeWhile_append_dropWhile (p := isNameStart) (l := c :: more)
  rw [List.takeWhile_cons_of_pos hc] at hwhole ⊢
  simp only [List.takeWhile_append_of_pos hlater, List.dropWhile_append_of_pos hlater, hnil.1,
    hnil.2, List.append_nil, hwhole]

/-- A name that begins with given name characters goes on with what is left of
it. -/
theorem exists_of_afterStart {start cs after : List Char} (hcs : ∀ c ∈ cs, isNamePart c = true)
    (hstart : ∀ c ∈ start, isNamePart c = true) (hrest : StopsAt isNamePart rest)
    (h : afterStart start (cs ++ rest) = some after) :
    ∃ left, after = left ++ rest ∧ ∀ c ∈ left, isNamePart c = true := by
  induction start generalizing cs with
  | nil =>
      cases h
      exact ⟨cs, rfl, hcs⟩
  | cons c start ih =>
      cases cs with
      | nil =>
          cases rest with
          | nil => cases h
          | cons d rest =>
              simp only [List.nil_append, afterStart, Option.ite_none_right_eq_some] at h
              cases beq_iff_eq.mp h.1
              exact absurd (hstart c (by simp)) (by simp [hrest c rfl])
      | cons d cs =>
          simp only [List.cons_append, afterStart, Option.ite_none_right_eq_some] at h
          exact ih (fun c hc => hcs c (by simp [hc])) (fun c hc => hstart c (by simp [hc])) h.2

/-! ## Numbers

A numeral has digits, and a point with more digits if there is one.  The text of
a natural has digits only, and is read back by the same arithmetic in base
ten. -/

/-- The digits, by their codes. -/
theorem isAsciiDigit_iff {c : Char} : isAsciiDigit c = true ↔ 48 ≤ c.toNat ∧ c.toNat ≤ 57 := by
  simp only [isAsciiDigit, Bool.and_eq_true, decide_eq_true_eq]
  exact Iff.rfl

/-- A digit may stand in a name. -/
theorem isNamePart_of_isAsciiDigit {c : Char} (h : isAsciiDigit c = true) :
    isNamePart c = true := by
  have hascii : isAscii c = true := decide_eq_true (by have := isAsciiDigit_iff.mp h; omega)
  simp [isNamePart, isAlphanumeric, hascii, h]

theorem isBlank_of_isAsciiDigit {c : Char} (h : isAsciiDigit c = true) : isBlank c = false := by
  obtain ⟨hlow, hhigh⟩ := isAsciiDigit_iff.mp h
  have hascii : isAscii c = true := decide_eq_true (by omega)
  have hspace : c ≠ ' ' := by
    rintro rfl
    exact absurd hlow (by decide)
  rw [isBlank, if_pos hascii]
  simp [hspace]
  omega

/-- Where there is nothing to drop nothing is dropped. -/
theorem dropWhile_of_all_false {p : Char → Bool} {cs : List Char} (h : ∀ c ∈ cs, p c = false) :
    cs.dropWhile p = cs := by
  cases cs with
  | nil => rfl
  | cons c cs => simp [h c (by simp)]

/-- A text without blanks is trimmed. -/
theorem trim_of_all_false {cs : List Char} (h : ∀ c ∈ cs, isBlank c = false) : trim cs = cs := by
  have hreverse : ∀ c ∈ cs.reverse, isBlank c = false := fun c hc => h c (List.mem_reverse.mp hc)
  rw [trim, trimWhile, dropRightWhile, dropWhile_of_all_false h, dropWhile_of_all_false hreverse,
    List.reverse_reverse]

/-- A text is not divided at what does not occur in it. -/
theorem splitFirst_of_not_mem {c : Char} {cs : List Char} (h : c ∉ cs) :
    splitFirst c cs = none := by
  induction cs with
  | nil => rfl
  | cons d cs ih =>
      rw [List.mem_cons, not_or] at h
      simp [splitFirst, Ne.symm h.1, ih h.2]

section Digits

variable (n : ℕ)

/-- Numbers are written in digits. -/
theorem isAsciiDigit_of_mem_toDigits {c : Char} (hc : c ∈ Nat.toDigits 10 n) :
    isAsciiDigit c = true := by
  have hdigit := Nat.isDigit_of_mem_toDigits (by decide) (by decide) hc
  simpa [Char.isDigit, isAsciiDigit, Char.le_def] using hdigit

/-- No digit is one of the other characters of a text. -/
theorem not_mem_toDigits {c : Char} (hc : isAsciiDigit c = false) : c ∉ Nat.toDigits 10 n :=
  fun hmem => by simp [isAsciiDigit_of_mem_toDigits n hmem] at hc

/-- **A number is read back from its digits.** -/
theorem readInt_toDigits : Numeric.readInt (Nat.toDigits 10 n) = some (n : ℤ) := by
  have hminus : '-' ∉ Nat.toDigits 10 n := not_mem_toDigits n (by decide)
  have hplus : '+' ∉ Nat.toDigits 10 n := not_mem_toDigits n (by decide)
  have hall : (Nat.toDigits 10 n).all (fun c => '0' ≤ c && c ≤ '9') = true :=
    List.all_eq_true.mpr fun c hc => isAsciiDigit_of_mem_toDigits n hc
  have hvalue : (Nat.toDigits 10 n).foldl (fun n c => 10 * n + (c.toNat - 48)) 0 = n := by
    change (Nat.toDigits 10 n).foldl (fun n c => 10 * n + (c.toNat - '0'.toNat)) 0 = n
    rw [← Nat.ofDigitChars_eq_foldl, Nat.ofDigitChars_ten_toDigits]
  rw [Numeric.readInt]
  · simp [hall, hvalue, Nat.toDigits_ne_nil]
  · intro rest heq
    simp [heq] at hminus
  · intro rest heq
    simp [heq] at hplus

/-- The digits of a natural are read as the number. -/
theorem read?_toDigits (hn : Scalar.fits n = true) :
    Scalar.read? (Nat.toDigits 10 n) = some (.ofNat n) := by
  have hblank : ∀ c ∈ Nat.toDigits 10 n, isBlank c = false :=
    fun c hc => isBlank_of_isAsciiDigit (isAsciiDigit_of_mem_toDigits n hc)
  rw [Scalar.read?, trim_of_all_false hblank,
    splitFirst_of_not_mem (not_mem_toDigits n (by decide)),
    splitFirst_of_not_mem (not_mem_toDigits n (by decide))]
  simp [Numeric.readSigned, readInt_toDigits, Scalar.fitsSigned_of_fits hn, hn, Scalar.ofNat]

end Digits

/-- A text that is a numeral from its beginning to its end. -/
structure IsNumeral (cs : List Char) : Prop where
  start : ∃ c more, cs = c :: more ∧ isAsciiDigit c = true
  whole : numeral cs = (cs, [])

/-- The digits and the point of a numeral do not depend on what follows it. -/
theorem numeral_append {cs text after : List Char} (h : numeral cs = (text, after))
    (hrest : StopsAt isNamePart rest) : numeral (text ++ rest) = (text, rest) := by
  have hdigits : ∀ l : List Char, ∀ c ∈ l.takeWhile isAsciiDigit, isAsciiDigit c = true :=
    fun l c hc => List.mem_takeWhile_imp hc
  have hstop : StopsAt isAsciiDigit rest := by
    intro c hc
    by_contra hdigit
    rw [Bool.not_eq_false] at hdigit
    exact absurd (isNamePart_of_isAsciiDigit hdigit) (by simp [hrest c hc])
  -- digits at the end of a text are taken to its end
  have htake : ∀ {l more : List Char}, StopsAt isAsciiDigit more →
      (l.takeWhile isAsciiDigit ++ more).takeWhile isAsciiDigit = l.takeWhile isAsciiDigit ∧
        (l.takeWhile isAsciiDigit ++ more).dropWhile isAsciiDigit = more := by
    intro l more hmore
    have hsplit := takeWhile_append_of_stopsAt (l.takeWhile isAsciiDigit) hmore
    rwa [List.takeWhile_eq_self_iff.mpr (hdigits l), List.dropWhile_eq_nil_iff.mpr (hdigits l)]
      at hsplit
  have hwhole : numeral (cs.takeWhile isAsciiDigit ++ rest) =
      (cs.takeWhile isAsciiDigit, rest) := by
    rw [numeral, (htake hstop).1, (htake hstop).2]
    cases rest with
    | nil => rfl
    | cons c rest =>
        have hpoint : c ≠ '.' := fun heq => absurd (hrest c rfl) (by rw [heq]; decide)
        simp [hpoint]
  rw [numeral] at h
  split at h
  · next more hmore =>
      split at h
      · cases h
        exact hwhole
      · next fraction hfraction =>
          cases h
          have hpoint : StopsAt isAsciiDigit ('.' :: (more.takeWhile isAsciiDigit ++ rest)) :=
            stopsAt_cons (by decide) _
          rw [List.append_assoc, List.cons_append, numeral, (htake hpoint).1, (htake hpoint).2]
          simp only [(htake hstop).1, (htake hstop).2]
  · cases h
    exact hwhole

/-- A numeral is read up to its end. -/
theorem number_append {cs : List Char} {v : Scalar} (hcs : IsNumeral cs)
    (hv : Scalar.read? cs = some v) (hrest : StopsAt isNamePart rest) :
    number (cs ++ rest) = some (.num v, rest) := by
  have hnumeral := numeral_append hcs.whole hrest
  obtain ⟨c, more, rfl, hc⟩ := hcs.start
  rw [List.cons_append] at hnumeral ⊢
  simp [number, hc, hnumeral, hv]

/-- The text of a number is a numeral. -/
theorem isNumeral_toString (n : ℕ) : IsNumeral (toString n).toList := by
  have hdigits : ∀ c ∈ Nat.toDigits 10 n, isAsciiDigit c = true :=
    fun c => isAsciiDigit_of_mem_toDigits n
  rw [Nat.toString_eq_repr, Nat.toList_repr]
  constructor
  · obtain ⟨d, ds, hds⟩ := List.exists_cons_of_ne_nil (Nat.toDigits_ne_nil (n := n) (b := 10))
    exact ⟨d, ds, hds, hdigits d (by simp [hds])⟩
  · rw [numeral, List.takeWhile_eq_self_iff.mpr hdigits, List.dropWhile_eq_nil_iff.mpr hdigits]

/-! ## What a name is not -/

/-- No part of a name is a blank. -/
theorem isSpace_of_isNamePart {c : Char} (h : isNamePart c = true) : isSpace c = false := by
  by_contra hspace
  simp only [isSpace, Bool.not_eq_false, Bool.or_eq_true, beq_iff_eq] at hspace
  rcases hspace with ((rfl | rfl) | rfl) | rfl <;> exact absurd h (by decide)

/-- A text that begins like a name begins with no number. -/
theorem number_of_isNameStart {c : Char} (h : isNameStart c = true) (cs : List Char) :
    number (c :: cs) = none := by
  have hdigit : isAsciiDigit c = false := by
    by_contra hdigit
    rw [Bool.not_eq_false] at hdigit
    obtain ⟨hlow, hhigh⟩ := isAsciiDigit_iff.mp hdigit
    have hascii : isAscii c = true := decide_eq_true (by omega)
    simp only [isNameStart, isAlphabetic, hascii, if_true, isAsciiLetter, Bool.or_eq_true,
      Bool.and_eq_true, decide_eq_true_eq, beq_iff_eq] at h
    rcases h with (⟨h, -⟩ | ⟨h, -⟩) | rfl
    · have hle : 97 ≤ c.toNat := h
      omega
    · have hle : 65 ≤ c.toNat := h
      omega
    · exact absurd hhigh (by decide)
  simp [number, hdigit]

/-- What follows the beginning of a name is no list of arguments. -/
theorem symbol_open_append {left : List Char} (hleft : ∀ c ∈ left, isNamePart c = true)
    (hrest : MayFollow k rest) : symbol '(' (left ++ rest) = none := by
  cases left with
  | nil => exact hrest.symbol_open
  | cons c left =>
      have hc := hleft c (by simp)
      have hopen : c ≠ '(' := by
        rintro rfl
        exact absurd hc (by decide)
      simp [symbol, skip, isSpace_of_isNamePart hc, char, hopen]

/-- A variable is not taken for a call, also if it begins with the name of
one. -/
theorem afterStart_bind_symbol (start : List Char) {cs : List Char}
    (hcs : ∀ c ∈ cs, isNamePart c = true) (hstart : ∀ c ∈ start, isNamePart c = true)
    (hrest : MayFollow k rest) :
    (afterStart start (cs ++ rest)).bind (symbol '(') = none := by
  cases hafter : afterStart start (cs ++ rest) with
  | none => rfl
  | some after =>
      obtain ⟨left, rfl, hleft⟩ := exists_of_afterStart hcs hstart hrest.stopsAt hafter
      exact symbol_open_append hleft hrest

/-! ## Fragments

Parentheses are counted to find the end of a fragment.  The count never falls
below zero inside of it, and is zero at the end. -/

/-- A fragment is read up to the parenthesis that closes what stood open before
it. -/
theorem balanced_append {cs : List Char} {depth : ℕ}
    (hopened : ∀ start, start <+: cs → start.count ')' ≤ depth + start.count '(')
    (hclosed : cs.count ')' = depth + cs.count '(') :
    balanced depth (cs ++ ')' :: rest) = some (cs, ')' :: rest) := by
  induction cs generalizing depth with
  | nil =>
      simp at hclosed
      simp [balanced, ← hclosed]
  | cons c cs ih =>
      -- the condition on the beginnings of the text is passed on to the rest
      have hnext : ∀ start, start <+: cs →
          (c :: start).count ')' ≤ depth + (c :: start).count '(' :=
        fun start hstart => hopened (c :: start) (List.cons_prefix_cons.mpr ⟨rfl, hstart⟩)
      by_cases hopen : c = '('
      · subst hopen
        have hstep := @ih (depth + 1)
          (fun start hstart => by have := hnext start hstart; simp at this; omega)
          (by simp at hclosed; omega)
        simp [balanced, hstep]
      by_cases hclose : c = ')'
      · subst hclose
        have hdepth := hnext [] List.nil_prefix
        obtain ⟨d, rfl⟩ : ∃ d, depth = d + 1 := ⟨depth - 1, by simp at hdepth; omega⟩
        have hstep := @ih d
          (fun start hstart => by have := hnext start hstart; simp at this; omega)
          (by simp at hclosed; omega)
        simp [balanced, hstep]
      · have hstep := @ih depth
          (fun start hstart => by have := hnext start hstart; simpa [hopen, hclose] using this)
          (by simpa [hopen, hclose] using hclosed)
        simp [balanced, hstep, hopen, hclose]

/-- The blanks of the grammar are among those that are trimmed. -/
theorem isBlank_of_isSpace {c : Char} (h : isSpace c = true) : isBlank c = true := by
  simp only [isSpace, Bool.or_eq_true, beq_iff_eq] at h
  rcases h with ((rfl | rfl) | rfl) | rfl <;> decide

/-- A trimmed text begins with no blank. -/
theorem stopsAt_of_trim_eq {cs : List Char} (h : trim cs = cs) : StopsAt isBlank cs := by
  have hdrop : cs.dropWhile isBlank = cs := by
    refine (List.dropWhile_suffix isBlank).eq_of_length_le ?_
    calc cs.length = (trim cs).length := by rw [h]
      _ ≤ (cs.dropWhile isBlank).length := by
        simpa [trim, trimWhile, dropRightWhile] using
          (List.dropWhile_suffix isBlank (l := (cs.dropWhile isBlank).reverse)).length_le
  intro c hc
  have hhead := List.head?_dropWhile_not isBlank cs
  rwa [hdrop, hc] at hhead

/-- Behind a beginning is found what was put there. -/
theorem afterStart_append (start cs : List Char) : afterStart start (start ++ cs) = some cs := by
  induction start with
  | nil => rfl
  | cons c start ih => simp [afterStart, ih]

/-- A fragment in its call is read, without the blanks around it. -/
theorem unknownCall_append {b b' cs : List Char} (hb : IsBlanks b) (hb' : IsBlanks b')
    (hstop : StopsAt isSpace cs)
    (hcs : ∀ rest, balanced 0 (cs ++ ')' :: rest) = some (cs, ')' :: rest)) (rest : List Char) :
    unknownCall ("unknown".toList ++ (b ++ '(' :: (b' ++ (cs ++ ')' :: rest)))) =
      some (.unknown (String.ofList (trim cs)), rest) := by
  have hskip : skip (b' ++ (cs ++ ')' :: rest)) = cs ++ ')' :: rest := by
    rw [skip_blanks hb', skip_of_stopsAt]
    cases cs with
    | nil => exact stopsAt_cons rfl rest
    | cons c cs => exact stopsAt_cons (hstop c rfl) _
  rw [unknownCall, afterStart_append]
  simp only [Option.bind_eq_bind, Option.bind_some, symbol_blanks hb, symbol_cons (c := '(') rfl,
    hskip, hcs]
  simp [char]

end CostAnalysis.Formula
