import CostAnalysis.Proofs.Formula.Algebraic
import CostAnalysis.Proofs.Growth.Induction
import CostAnalysis.Proofs.Recurrence.WorkTexts

/-!
# Which works are read back

The work of a class `n ^ d · (log n) ^ l` is shown by the name of the class.
The name of a power, or of a power with a single logarithm, is read as this work
again.  The name of any other power of the logarithm is not
(`Work.read_text_iff`).

**What goes wrong.**  The name has the power between the logarithm and its
argument, as in `log^2 n`. None of the patterns that write out the notation
knows this form, so no call of the logarithm comes about: the letters `log` are
taken for the name of a variable, or nothing is read at all.

**The argument.**  In such a name, and in what writing it out makes of it, no
parenthesis stands behind a letter or digit (`Formula.NoCall`).  A text of this
kind spells a formula without functions (`Formula.Spells.isAlgebraic`), and the
class of such a formula has no logarithms (`Growth.logs_ofPoly`).
-/

namespace CostAnalysis

open Text

/-! ## Classes without logarithms

An atom that is no logarithm and has none inside contributes none to the class.
Such atoms are closed under what quotients and powers make, so the closed form
of an algebraic formula has no others. -/

namespace Growth

variable {vars : List String} {g h : Growth}

/-- The class of no power of the atom has a logarithm. -/
def LogFree (vars : List String) (a : Atom) : Prop :=
  ∀ e, (ofAtom vars e a).logs = []

/-- A product of two classes without logarithms has none. -/
theorem logs_mul (hg : g.logs = []) (hh : h.logs = []) : (g.mul h).logs = [] := by
  unfold mul
  rw [hg, hh]
  rfl

theorem logs_ofFactors {fs : List (Atom × ℤ)} (hfs : ∀ f ∈ fs, LogFree vars f.1) {acc : Growth}
    (hacc : acc.logs = []) : (ofFactors vars acc fs).logs = [] := by
  induction fs generalizing acc with
  | nil => exact hacc
  | cons f fs ih =>
      obtain ⟨hf, hfs⟩ := List.forall_mem_cons.mp hfs
      exact ih hfs (logs_mul hacc (hf f.2))

/-- **No logarithm in the atoms, none in the class.** -/
theorem logs_ofPoly {p : Poly} (hp : p.AtomsIn (LogFree vars)) : (ofPoly vars p).logs = [] := by
  obtain ⟨ts⟩ := p
  have hterms : ∀ {ts : List (Monomial × Scalar)}, (∀ t ∈ ts, t.1.AtomsIn (LogFree vars)) →
      ∀ t ∈ ofTerms vars ts, t.2.logs = [] := by
    intro ts hts
    induction ts with
    | nil =>
        intro t ht
        cases ht
    | cons t ts ih =>
        obtain ⟨ht, hts⟩ := List.forall_mem_cons.mp hts
        refine List.forall_mem_cons.mpr ⟨?_, ih hts⟩
        obtain ⟨⟨fs⟩, c⟩ := t
        exact logs_ofFactors ht rfl
  unfold ofPoly
  split
  · rfl
  -- the class of a sum is that of one of its terms
  · rcases dominant_cases (ofTerms vars ts) with heq | ⟨t, ht, heq⟩
    · rw [heq]
      rfl
    · rw [heq]
      exact hterms hp t ht

/-- A variable alone has no logarithm. -/
theorem logFree_var (name : String) : LogFree vars (.var name) := by
  intro e
  unfold ofAtom
  split <;> rfl

/-- Products and sums of such atoms are taken together without making a
logarithm. -/
theorem closed_logFree : Atom.Closed (LogFree vars) where
  unknown _ _ := rfl
  exp base {p} _ e := by
    show (ofExp vars base p e).logs = []
    rw [ofExp]
    split <;> rfl
  power {p} exponent hp e := by
    unfold ofAtom scaled
    rw [logs_ofPoly hp]
    rfl

end Growth

namespace Work

/-! ## Names with a power of the logarithm

The name is followed through the three replacements, each of which finds nothing
in it.  What is left has the caret behind the letters `log`, and nothing is
applied to anything. -/

/-- No parenthesis stands behind a name, and no letter behind the last one of a
logarithm. -/
def Unapplied (a b : Char) : Prop :=
  Formula.NoCall a b ∧ (a = 'g' → isSmallLetter b = false)

instance (a b : Char) : Decidable (Unapplied a b) :=
  inferInstanceAs (Decidable ((_ → _) ∧ (_ → _)))

theorem unapplied_of_ne {a b : Char} (ha : a ≠ 'g') (hb : b ≠ '(') : Unapplied a b :=
  ⟨fun h => absurd h hb, fun h => absurd h ha⟩

/-- The name of a class with a power of the logarithm, without blanks. -/
inductive IsLogPower : List Char → Prop
  | alone {exponent : List Char} (h : IsPower ('n' :: '^' :: exponent)) :
      IsLogPower ("log^".toList ++ (exponent ++ ['n']))
  | product {front exponent : List Char} (hfront : IsPower front)
      (h : IsPower ('n' :: '^' :: exponent)) :
      IsLogPower (front ++ ("log^".toList ++ (exponent ++ ['n'])))

/-- There is no `g` in a power. -/
theorem ne_of_mem_powerChars {c : Char} (hc : c ∈ powerChars) : c ≠ 'g' := by
  rintro rfl
  exact absurd hc (by decide)

/-- Nothing is applied in a power: no `g` and no call stands in it. -/
theorem IsPower.isChain_unapplied {text : List Char} (h : IsPower text) :
    text.IsChain Unapplied := by
  -- behind the sign of the power at most the first character is a parenthesis
  have hcons : ∀ (a : Char) (text : List Char), a ≠ 'g' → (∀ b ∈ text, b ≠ '(' ∧ b ≠ 'g') →
      (a :: text).IsChain Unapplied := by
    intro a text
    induction text generalizing a with
    | nil => exact fun _ _ => .singleton a
    | cons b text ih =>
        intro ha htext
        obtain ⟨hb, htext⟩ := List.forall_mem_cons.mp htext
        exact List.isChain_cons_cons.mpr ⟨unapplied_of_ne ha hb.1, ih b hb.2 htext⟩
  have hdigits : ∀ k, ∀ c ∈ Nat.toDigits 10 k, c ≠ '(' ∧ c ≠ 'g' := by
    have hall : ∀ c ∈ "0123456789".toList, c ≠ '(' ∧ c ≠ 'g' := by decide
    exact fun k c hc => hall c (mem_of_mem_toDigits hc)
  cases h with
  | size => exact .singleton _
  | whole k => exact List.isChain_cons_cons.mpr ⟨by decide, hcons _ _ (by decide) (hdigits k)⟩
  | fraction p q =>
      refine List.isChain_cons_cons.mpr ⟨by decide, List.isChain_cons_cons.mpr ⟨by decide, ?_⟩⟩
      refine hcons _ _ (by decide) ?_
      simp only [List.forall_mem_cons, List.forall_mem_append]
      exact ⟨hdigits p, by decide, hdigits q, by decide⟩

namespace IsLogPower

variable {text : List Char} (h : IsLogPower text)
include h

/-- Such a name begins with a logarithm or with the size. -/
theorem exists_cons : ∃ c cs, text = c :: cs ∧ (c = '1' ∨ c = 'n' ∨ c = 'l') := by
  cases h with
  | alone => exact ⟨'l', _, rfl, by simp⟩
  | product hfront => cases hfront <;> exact ⟨'n', _, rfl, by simp⟩

/-- Such a name is written in the characters of powers and the letters of the
logarithm. -/
theorem mem_chars : ∀ c ∈ text, c ∈ powerChars ++ ['l', 'o', 'g'] := by
  have hpower : ∀ {text : List Char}, IsPower text →
      ∀ c ∈ text, c ∈ powerChars ++ ['l', 'o', 'g'] :=
    fun h c hc => List.mem_append_left _ (h.mem_powerChars c hc)
  have hlog : ∀ {exponent : List Char}, IsPower ('n' :: '^' :: exponent) →
      ∀ c ∈ "log^".toList ++ (exponent ++ ['n']), c ∈ powerChars ++ ['l', 'o', 'g'] := by
    intro exponent h
    have hexponent := (List.forall_mem_cons.mp (List.forall_mem_cons.mp (hpower h)).2).2
    simp only [List.forall_mem_append]
    exact ⟨by decide, hexponent, by decide⟩
  cases h with
  | alone h => exact hlog h
  | product hfront h => exact List.forall_mem_append.mpr ⟨hpower hfront, hlog h⟩

theorem isChain : text.IsChain Unapplied := by
  have hlog : ∀ {exponent : List Char}, IsPower ('n' :: '^' :: exponent) →
      ("log^".toList ++ (exponent ++ ['n'])).IsChain Unapplied := by
    intro exponent h
    have hpower : ('^' :: exponent).IsChain Unapplied := h.isChain_unapplied.tail
    have hchars : ∀ c ∈ '^' :: exponent, c ∈ powerChars :=
      (List.forall_mem_cons.mp h.mem_powerChars).2
    -- behind the exponent stands the size, which is no parenthesis
    have hback : ('^' :: exponent ++ ['n']).IsChain Unapplied := by
      refine List.isChain_append.mpr ⟨hpower, .singleton _, ?_⟩
      rintro a ha - ⟨⟩
      exact unapplied_of_ne (ne_of_mem_powerChars (hchars a (List.mem_of_getLast? ha))) (by decide)
    show ("log".toList ++ ('^' :: exponent ++ ['n'])).IsChain Unapplied
    refine List.isChain_append.mpr ⟨by decide, hback, ?_⟩
    rintro a ⟨⟩ - ⟨⟩
    decide
  cases h with
  | alone h => exact hlog h
  | product hfront h =>
      refine List.isChain_append.mpr ⟨hfront.isChain_unapplied, hlog h, ?_⟩
      rintro a ha - ⟨⟩
      have hmem := hfront.mem_powerChars a (List.mem_of_getLast? ha)
      exact unapplied_of_ne (ne_of_mem_powerChars hmem) (by decide)

/-- Writing such a name out makes no call of it. -/
theorem isChain_explicit : (explicit text).IsChain Formula.NoCall := by
  have hbare : bareLog.Takes fun _ taken => ¬ taken.IsChain Unapplied := by
    refine takes_bareLog.mono ?_
    rintro c - ⟨hc, rfl⟩ hchain
    have hletter := (List.isChain_cons_cons.mp hchain.tail.tail).1.2 rfl
    rw [hc] at hletter
    cases hletter
  have hfactor : factorBeforeLog.Takes fun _ taken => ¬ taken.IsChain Unapplied := by
    refine takes_factorBeforeLog.mono ?_
    rintro c - rfl hchain
    have hopen : ¬ ['l', 'o', 'g', '('].IsChain Unapplied := by decide
    exact hopen hchain.tail
  have hcalls : text.IsChain Formula.NoCall := h.isChain.imp fun _ _ hab => hab.1
  rw [explicit, replace_of_isChain hbare h.isChain, replace_of_isChain hfactor h.isChain]
  refine isChain_replace takes_coefficientBeforeFactor ?_ hcalls
  rintro ⟨sign, number, c⟩ - ⟨hnumber, rfl⟩ htaken
  -- a sign of multiplication comes between the number and what follows it
  have hstar : ∀ a, Formula.NoCall a '*' := fun a h => absurd h (by decide)
  have hstar' : Formula.NoCall '*' c := fun _ => by decide
  rw [← List.append_assoc] at htaken
  refine ⟨List.isChain_append.mpr ⟨htaken.left_of_append, ?_, ?_⟩, ?_, ?_⟩
  · exact List.isChain_cons_cons.mpr ⟨hstar', .singleton c⟩
  · rintro a - - ⟨⟩
    exact hstar a
  · obtain ⟨d, number, rfl⟩ := List.exists_cons_of_ne_nil hnumber
    cases sign <;> rfl
  · simp

end IsLogPower

/-- **Such a name is not read as its class.**  If it is read at all, then as a
formula without functions, and the class of that has no logarithm. -/
theorem logs_read_of_isLogPower {text : String} {cs : List Char} (h : IsLogPower cs)
    (htext : compactForm text.toList = cs) (hknown : (read text).known = true) :
    (read text).growth.logs = [] := by
  obtain ⟨c, cs, rfl, hc⟩ := h.exists_cons
  have hcompact : Formula.Reader.Compact (explicit (c :: cs)) := by
    have hall : ∀ c ∈ powerChars ++ ['l', 'o', 'g'], Formula.Reader.isSpace c = false := by decide
    exact forall_mem_explicit (by decide) fun c hc => hall c (h.mem_chars c hc)
  rw [read_eq_of_head htext hc] at hknown ⊢
  cases hread : Formula.ofChars? (explicit (c :: cs)) with
  | none =>
      rw [hread] at hknown
      cases hknown
  | some e =>
      have halgebraic : e.IsAlgebraic :=
        (Formula.spells_of_ofChars? hcompact hread).isAlgebraic h.isChain_explicit
      show (ofFormula _ e).growth.logs = []
      rw [ofFormula]
      split
      · rfl
      · exact Growth.logs_ofPoly
          (halgebraic.atomsIn_closedForm Growth.closed_logFree Growth.logFree_var)

/-! ## The names of classes -/

variable {d l : ℚ}

/-- A power of the logarithm is named like a power of the size, with the sign of
the power in front of the size. -/
theorem exists_logText (hl : 0 ≤ l) (hone : l ≠ 1) : ∃ exponent,
    IsPower ('n' :: '^' :: exponent) ∧
      (Growth.logText "n" (.exact l)).toList = "log^".toList ++ (exponent ++ [' ', 'n']) := by
  have hpower := isPower_powerText hl
  have hone' : (Scalar.exact l).isOne = false := by
    rw [Bool.eq_false_iff, Ne, Scalar.isOne_exact]
    exact hone
  have hsign : (Scalar.exact l).isNegative = false := by
    simpa [Scalar.isNegative, Scalar.numer] using hl
  rw [Growth.powerText, hone', hsign, Bool.not_false, Bool.and_true] at hpower
  rw [Growth.logText, hone']
  cases hint : (Scalar.exact l).isInteger with
  | true =>
      rw [hint] at hpower
      exact ⟨(Scalar.exact l).text.toList, by simpa using hpower, by simp⟩
  | false =>
      rw [hint] at hpower
      exact ⟨(parenthesized (Scalar.exact l).text).toList, by simpa using hpower, by simp⟩

/-- The name of a class with a power of the logarithm. -/
theorem isLogPower_compactForm (hd : 0 ≤ d) (hl : 0 ≤ l) (hzero : l ≠ 0) (hone : l ≠ 1) :
    IsLogPower (compactForm (Growth.polylog "n" (.exact d) (.exact l)).text.toList) := by
  obtain ⟨exponent, hexponent, hlog⟩ := exists_logText hl hone
  have hchars : ∀ c ∈ exponent, c ∈ powerChars :=
    (List.forall_mem_cons.mp (List.forall_mem_cons.mp hexponent.mem_powerChars).2).2
  have hlogChars : ∀ c ∈ (Growth.logText "n" (.exact l)).toList,
      c = ' ' ∨ c ∈ powerChars ++ ['l', 'o', 'g'] := by
    rw [hlog]
    simp only [List.forall_mem_append]
    exact ⟨by decide, fun c hc => .inr (List.mem_append_left _ (hchars c hc)), by decide⟩
  have hfilter : (Growth.logText "n" (.exact l)).toList.filter (fun c => !isBlank c) =
      "log^".toList ++ (exponent ++ ['n']) := by
    rw [hlog, List.filter_append, List.filter_append, filter_of_powerChars hchars]
    rfl
  rw [Growth.polylog_eq, Growth.powers_of_ne (Scalar.isZero_exact_of_ne hzero)]
  -- without a power of the size the logarithm stands alone
  rcases hd.eq_or_lt with rfl | hd
  · show IsLogPower (compactForm (Growth.logText "n" (.exact l)).toList)
    rw [compactForm_of_name hlogChars, hfilter]
    exact .alone hexponent
  · have hpower := isPower_powerText hd.le
    rw [Growth.powers_of_ne (Scalar.isZero_exact_of_ne hd.ne')]
    show IsLogPower (compactForm
      (Growth.powerText "n" (.exact d) ++ " " ++ Growth.logText "n" (.exact l)).toList)
    rw [String.toList_append, String.toList_append, List.append_assoc, compactForm_of_name]
    · rw [List.filter_append, List.filter_append, filter_of_powerChars hpower.mem_powerChars,
        hfilter]
      exact .product hpower hexponent
    · simp only [List.forall_mem_append]
      exact ⟨fun c hc => .inr (List.mem_append_left _ (hpower.mem_powerChars c hc)), by decide,
        hlogChars⟩

theorem read_congr {text text' : String} (h : compactForm text.toList = compactForm text'.toList) :
    read text = read text' := by
  rw [read, read, h]

/-- **Which works are read back.**  The work of `n ^ d · (log n) ^ l` is read
back from its text, with its class known and the same, if and only if there is
no logarithm or a single one. -/
theorem read_text_iff (hd : 0 ≤ d) (hl : 0 ≤ l) (hdfits : (Scalar.exact d).Fits)
    (hlfits : (Scalar.exact l).Fits) (hword : d.den = 1 → d.num < 2 ^ 63) :
    (read (ofGrowth (Growth.polylog "n" (.exact d) (.exact l))).text).known = true ∧
      (read (ofGrowth (Growth.polylog "n" (.exact d) (.exact l))).text).growth =
        (ofGrowth (Growth.polylog "n" (.exact d) (.exact l))).growth ↔ l = 0 ∨ l = 1 := by
  have htext : (ofGrowth (Growth.polylog "n" (.exact d) (.exact l))).text =
      (Growth.polylog "n" (.exact d) (.exact l)).text := by
    rw [ofGrowth_polylog hdfits hlfits]
  have hclass : (ofGrowth (Growth.polylog "n" (.exact d) (.exact l))).growth =
      Growth.polylog "n" (.exact d) (.exact l) := by
    rw [ofGrowth_polylog hdfits hlfits]
  have hknown : (ofGrowth (Growth.polylog "n" (.exact d) (.exact l))).known = true := by
    rw [ofGrowth_polylog hdfits hlfits]
  constructor
  · rintro ⟨hread, hgrowth⟩
    by_contra hother
    obtain ⟨hzero, hone⟩ := not_or.mp hother
    rw [hclass, htext] at hgrowth
    rw [htext] at hread
    have hname := isLogPower_compactForm hd hl hzero hone
    -- what is read has no logarithm in it, while the name has one
    have hlogs : (Growth.polylog "n" (.exact d) (.exact l)).logs = [] := by
      rw [← hgrowth]
      exact logs_read_of_isLogPower hname rfl hread
    rw [Growth.polylog_eq, Growth.powers_of_ne (Scalar.isZero_exact_of_ne hzero)] at hlogs
    cases hlogs
  · intro hl
    obtain ⟨k, hk, rfl⟩ : ∃ k : ℕ, k ≤ 1 ∧ l = k := by
      rcases hl with rfl | rfl
      · exact ⟨0, by decide, by simp⟩
      · exact ⟨1, le_rfl, by simp⟩
    have hcompact : compactForm (Growth.polylog "n" (.exact d) (.exact k)).text.toList =
        compactForm (String.ofList (classChars d k)).toList := by
      obtain ⟨hname, hchars⟩ := compactForm_classText hd hk
      rw [String.toList_ofList, hchars]
      exact hname
    have hback := (read_congr hcompact).trans (read_classChars hd hdfits hword hk)
    rw [htext, hback]
    exact ⟨hknown, rfl⟩

/-- A power times a single logarithm has a text of the first kind, so it is read
back. -/
theorem read_text_iff_singleLog :
    (ofGrowth (Growth.polylog "n" (.exact (3 / 2)) (.exact 1))).text = "n^(3/2) log n" ∧
      (read (ofGrowth (Growth.polylog "n" (.exact (3 / 2)) (.exact 1))).text).known = true ∧
      (read (ofGrowth (Growth.polylog "n" (.exact (3 / 2)) (.exact 1))).text).growth =
        (ofGrowth (Growth.polylog "n" (.exact (3 / 2)) (.exact 1))).growth := by
  have hfits : (Scalar.exact (3 / 2)).Fits :=
    ⟨3 / 2, rfl, by decide +kernel, by decide +kernel⟩
  have hone : (Scalar.exact 1).Fits := Scalar.one_fits
  have hden : (3 / 2 : ℚ).den ≠ 1 := by decide +kernel
  have hback := read_text_iff (d := 3 / 2) (l := 1) (by norm_num) zero_le_one hfits hone
    fun h => absurd h hden
  exact ⟨by decide +kernel, hback.mpr (.inr rfl)⟩

/-- The name of `(log n) ^ 2` is read as linear work, and counts as known. -/
theorem read_text_squaredLog :
    (ofGrowth (Growth.polylog "n" (.exact 0) (.exact 2))).text = "log^2 n" ∧
      (read (ofGrowth (Growth.polylog "n" (.exact 0) (.exact 2))).text).known = true ∧
      (read (ofGrowth (Growth.polylog "n" (.exact 0) (.exact 2))).text).growth.text = "n" ∧
      (read (ofGrowth (Growth.polylog "n" (.exact 0) (.exact 2))).text).growth.logs ≠
        (ofGrowth (Growth.polylog "n" (.exact 0) (.exact 2))).growth.logs := by
  decide +kernel

end Work

end CostAnalysis
