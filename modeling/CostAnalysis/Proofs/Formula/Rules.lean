import CostAnalysis.Proofs.Formula.Lexemes
import CostAnalysis.Proofs.Text.Scan

/-!
# Induction over what is read

What the reader takes off the front of a text is put together by the rules of
the grammar.  So a relation between texts and formulas, one for each level of
the grammar, that every rule keeps (`Rules`) holds of a text and the formula
that is read from it (`Rules.of_ofChars?`).

The statements go along the functions of the reader: each *takes* a text off the
front of what it is given, and that text stands in the relation to the formula
that is made of it.  Whatever is said about everything that can be read is an
instance: a property of formulas alone, the derivation of the text by the rules,
or that the text is read in every place.

**Three steps.**  What a lexeme takes off the front; what each function of the
reader takes, given what the functions that it calls take; and, since these call
each other to a bounded depth, an induction on that depth.  A relation enters by
its rules alone, so the three are made once.
-/

namespace CostAnalysis.Formula

open Reader Text

/-- The levels of the grammar. -/
inductive Level where
  | atom
  | signed
  | product
  | sum
deriving DecidableEq

/-- Relations between texts and formulas that the rules of the grammar keep.
Blanks may stand around the parts, so that the rules only name those inside of
calls. -/
structure Rules (P : Level → List Char → Formula → Prop) : Prop where
  blanks : ∀ {level : Level} {b text : List Char} {e : Formula}, IsBlanks b → P level text e →
    P level (b ++ text) e
  append_blanks : ∀ {level : Level} {b text : List Char} {e : Formula}, IsBlanks b →
    P level text e → P level (text ++ b) e
  number : ∀ {text : List Char} {v : Scalar}, IsNumeral text → Scalar.read? text = some v →
    P .atom text (.num v)
  name : ∀ {text : List Char}, IsName text → P .atom text (.var (String.ofList text))
  fragment : ∀ {b b' text : List Char}, IsBlanks b → IsBlanks b' → StopsAt isSpace text →
    Balanced text → P .atom ("unknown".toList ++ (b ++ '(' :: (b' ++ (text ++ [')']))))
      (.unknown (String.ofList (trim text)))
  call : ∀ {function b text : List Char} {a e : Formula}, IsName function → IsBlanks b →
    P .sum text a → apply (String.ofList function) a none = some e →
    P .atom (function ++ (b ++ '(' :: (text ++ [')']))) e
  call₂ : ∀ {function b text text' : List Char} {a d e : Formula}, IsName function → IsBlanks b →
    P .sum text a → P .sum text' d → apply (String.ofList function) a (some d) = some e →
    P .atom (function ++ (b ++ '(' :: (text ++ ',' :: (text' ++ [')'])))) e
  summation : ∀ {b₁ b₂ b₃ b₄ b₅ body index start stop : List Char} {e a d : Formula},
    IsBlanks b₁ → IsBlanks b₂ → IsBlanks b₃ → IsBlanks b₄ → IsBlanks b₅ → P .sum body e →
    IsName index → P .sum start a → P .sum stop d →
    P .atom ("Sum".toList ++ (b₁ ++ '(' :: (body ++ ',' :: (b₂ ++ '(' :: (b₃ ++ (index ++
      (b₄ ++ ',' :: (start ++ ',' :: (stop ++ ')' :: (b₅ ++ [')']))))))))))
      (e.sum (String.ofList index) a d)
  group : ∀ {text : List Char} {e : Formula}, P .sum text e → P .atom ('(' :: text ++ [')']) e
  base : ∀ {text : List Char} {e : Formula}, P .atom text e → P .signed text e
  power : ∀ {text sign text' : List Char} {a d : Formula}, P .atom text a →
    sign = ['*', '*'] ∨ sign = ['^'] → P .signed text' d →
      P .signed (text ++ (sign ++ text')) (a.pow d)
  negative : ∀ {text : List Char} {e : Formula}, P .signed text e → P .signed ('-' :: text) e.neg
  factor : ∀ {text : List Char} {e : Formula}, P .signed text e → P .product text e
  times : ∀ {text text' : List Char} {a d : Formula}, P .product text a → P .signed text' d →
    P .product (text ++ '*' :: text') (a.mul d)
  «over» : ∀ {text text' : List Char} {a d : Formula}, P .product text a → P .signed text' d →
    P .product (text ++ '/' :: text') (a.div d)
  addend : ∀ {text : List Char} {e : Formula}, P .product text e → P .sum text e
  plus : ∀ {text text' : List Char} {a d : Formula}, P .sum text a → P .product text' d →
    P .sum (text ++ '+' :: text') (a.add d)
  minus : ∀ {text text' : List Char} {a d : Formula}, P .sum text a → P .product text' d →
    P .sum (text ++ '-' :: text') (a.sub d)

namespace Reader

variable {cs text rest : List Char}

/-! ## Lexemes

What the smallest functions of the reader take is what they return, put before
the rest. -/

/-- A character that is read is the first one. -/
theorem eq_cons_of_char {c : Char} (h : char c cs = some rest) : cs = c :: rest := by
  cases cs with
  | nil => cases h
  | cons d cs =>
      obtain ⟨hd, hrest⟩ := Option.ite_none_right_eq_some.mp h
      rw [beq_iff_eq.mp hd, Option.some.inj hrest]

/-- A character with blanks around it. -/
theorem exists_of_skip {c : Char} {more : List Char} (h : skip cs = c :: more) :
    ∃ b b', IsBlanks b ∧ IsBlanks b' ∧ cs = b ++ c :: (b' ++ skip more) := by
  obtain ⟨b, hb, hcs⟩ := exists_skip cs
  obtain ⟨b', hb', hmore⟩ := exists_skip more
  exact ⟨b, b', hb, hb', by rw [← hmore, ← h, ← hcs]⟩

/-- A symbol is read with the blanks around it. -/
theorem exists_of_symbol {c : Char} (h : symbol c cs = some rest) :
    ∃ b b', IsBlanks b ∧ IsBlanks b' ∧ cs = b ++ c :: (b' ++ rest) := by
  obtain ⟨more, hchar, rfl⟩ := Option.map_eq_some_iff.mp h
  exact exists_of_skip (eq_cons_of_char hchar)

/-- No blank is left behind a symbol. -/
theorem stopsAt_of_symbol {c : Char} (h : symbol c cs = some rest) : StopsAt isSpace rest := by
  obtain ⟨more, -, rfl⟩ := Option.map_eq_some_iff.mp h
  intro d hd
  have hhead := List.head?_dropWhile_not isSpace more
  rw [skip] at hd
  rwa [hd] at hhead

/-- A text with a beginning is that beginning and what is found behind it. -/
theorem eq_append_of_afterStart {start : List Char} (h : afterStart start cs = some rest) :
    cs = start ++ rest := by
  induction start generalizing cs with
  | nil => exact Option.some.inj h
  | cons c start ih =>
      cases cs with
      | nil => cases h
      | cons d cs =>
          obtain ⟨hd, hrest⟩ := Option.ite_none_right_eq_some.mp h
          rw [beq_iff_eq.mp hd, ih hrest, List.cons_append]

/-- What is read as a name has the form of one. -/
theorem isName_of_name (h : name cs = some (text, rest)) : IsName text := by
  rw [name] at h
  split at h
  · cases h
  · next first hfirst =>
      cases h
      cases hcs : cs.takeWhile isNameStart with
      | nil => exact absurd hcs hfirst
      | cons c more =>
          have hstart : ∀ d ∈ c :: more, isNameStart d = true := fun d hd =>
            List.mem_takeWhile_imp (hcs ▸ hd)
          refine ⟨c, _, rfl, hstart c List.mem_cons_self, List.all_eq_true.mpr fun d hd => ?_⟩
          rcases List.mem_append.mp hd with hd | hd
          · exact isNamePart_of_isNameStart (hstart d (List.mem_cons_of_mem _ hd))
          · exact List.mem_takeWhile_imp hd

theorem eq_append_of_name (h : name cs = some (text, rest)) : cs = text ++ rest := by
  rw [name] at h
  split at h
  · cases h
  · cases h
    rw [List.append_assoc, List.takeWhile_append_dropWhile, List.takeWhile_append_dropWhile]

/-- What is read as a numeral has digits and points, and all the digits at the
front. -/
theorem eq_append_of_numeral (h : numeral cs = (text, rest)) :
    cs = text ++ rest ∧ cs.takeWhile isAsciiDigit <+: text ∧
      ∀ c ∈ text, isAsciiDigit c = true ∨ c = '.' := by
  have hwhole := List.takeWhile_append_dropWhile (p := isAsciiDigit) (l := cs)
  have hdigits : ∀ (l : List Char), ∀ c ∈ l.takeWhile isAsciiDigit,
      isAsciiDigit c = true ∨ c = '.' := fun l c hc => Or.inl (List.mem_takeWhile_imp hc)
  rw [numeral] at h
  split at h
  · next more hmore =>
      split at h
      · cases h
        exact ⟨hwhole.symm, List.prefix_rfl, hdigits cs⟩
      -- behind a point more digits are taken
      · next fraction hfraction =>
          cases h
          refine ⟨?_, List.prefix_append _ _, fun c hc => ?_⟩
          · rw [List.append_assoc, List.cons_append, List.takeWhile_append_dropWhile, ← hmore,
              hwhole]
          · rcases List.mem_append.mp hc with hc | hc
            · exact hdigits cs c hc
            · rcases List.mem_cons.mp hc with rfl | hc
              · exact Or.inr rfl
              · exact hdigits more c hc
  · cases h
    exact ⟨hwhole.symm, List.prefix_rfl, hdigits cs⟩

/-- A character that is no end of a fragment is taken, and the depth goes on
with it. -/
theorem balanced_cons {c : Char} {depth deeper : ℕ} (h : depthStep true depth c = some deeper)
    (cs : List Char) : balanced depth (c :: cs) =
      (balanced deeper cs).map fun taken => (c :: taken.1, taken.2) := by
  by_cases hopen : c = '('
  · subst hopen
    cases h
    rfl
  by_cases hclose : c = ')'
  · subst hclose
    cases depth with
    | zero => cases h
    | succ depth =>
        cases h
        rfl
  · obtain rfl : depth = deeper := by simpa [depthStep, hopen, hclose] using h
    simp [balanced, hopen, hclose]

/-- What is read up to a closing parenthesis has all its own in pairs. -/
theorem eq_append_of_balanced {depth : ℕ} (h : balanced depth cs = some (text, rest)) :
    cs = text ++ rest ∧ depthAfter true depth text = some 0 := by
  induction cs generalizing depth text with
  | nil => cases h
  | cons c cs ih =>
      cases hstep : depthStep true depth c with
      -- within parentheses the text goes on
      | some deeper =>
          rw [balanced_cons hstep] at h
          obtain ⟨⟨text', rest'⟩, hbalanced, heq⟩ := Option.map_eq_some_iff.mp h
          cases heq
          obtain ⟨hcs, hdepth⟩ := ih hbalanced
          rw [depthAfter_cons, hstep]
          exact ⟨by rw [hcs, List.cons_append], hdepth⟩
      -- a parenthesis is closed that was not opened in the text: it ends
      | none =>
          obtain ⟨rfl, rfl⟩ : depth = 0 ∧ c = ')' := by
            rw [depthStep] at hstep
            grind
          cases h
          exact ⟨rfl, rfl⟩

/-- A fragment ends at the parenthesis that closes what stood open before it. -/
theorem balanced_of_depthAfter {depth : ℕ} (h : depthAfter true depth text = some 0)
    (rest : List Char) : balanced depth (text ++ ')' :: rest) = some (text, ')' :: rest) := by
  induction text generalizing depth with
  | nil =>
      cases h
      rfl
  | cons c text ih =>
      obtain ⟨deeper, hstep, h⟩ := Option.bind_eq_some_iff.mp h
      rw [List.cons_append, balanced_cons hstep, ih h, Option.map_some]

/-! ## Functions of the reader

Each function is shown to take related texts, given that those it calls do.  The
recursion through parentheses and arguments is one through `sum`, which is
therefore an assumption (`hsum`) up to the very end, where the induction on the
fuel discharges it. -/

/-- The function takes a text off the front of what it reads, to which the
formula that is made of it is related. -/
def Rule.Takes (P : List Char → Formula → Prop) (rule : Rule Formula) : Prop :=
  ∀ {cs e rest}, rule cs = some (e, rest) → ∃ text, cs = text ++ rest ∧ P text e

/-- The function takes a sign off the front of what it reads, which joins texts
of the two kinds. -/
def Rule.TakesSign (P Q : List Char → Formula → Prop)
    (sign : Rule (Formula → Formula → Formula)) : Prop :=
  ∀ {cs combine rest}, sign cs = some (combine, rest) →
    ∃ text, cs = text ++ rest ∧ ∀ {front back a b}, P front a → Q back b →
      P (front ++ (text ++ back)) (combine a b)

/-- A chain of operands goes on with one text behind another. -/
theorem takes_chained {P Q : List Char → Formula → Prop}
    {sign : Rule (Formula → Formula → Formula)} {operand : Rule Formula}
    (hsign : Rule.TakesSign P Q sign) (hoperand : Rule.Takes Q operand)
    (hfirst : ∀ {text e}, Q text e → P text e) : Rule.Takes P (chained sign operand) := by
  -- what was read so far is the front, and each step adds a sign and an operand
  -- to it
  have hchain : ∀ (fuel : ℕ) (acc : Formula) (front cs : List Char), P front acc →
      ∃ text, cs = text ++ (chain sign operand fuel acc cs).2 ∧
        P (front ++ text) (chain sign operand fuel acc cs).1 := by
    intro fuel
    induction fuel with
    | zero => exact fun acc front cs hacc => ⟨[], rfl, by rwa [List.append_nil]⟩
    | succ fuel ih =>
        intro acc front cs hacc
        rw [chain]
        split
        · exact ⟨[], rfl, by rwa [List.append_nil]⟩
        · next combine rest hcombine =>
            split
            · exact ⟨[], rfl, by rwa [List.append_nil]⟩
            · next e rest' he =>
                obtain ⟨joint, rfl, hjoin⟩ := hsign hcombine
                obtain ⟨text, rfl, htext⟩ := hoperand he
                obtain ⟨more, hmore, hwhole⟩ := ih (combine acc e) (front ++ (joint ++ text)) rest'
                  (hjoin hacc htext)
                refine ⟨joint ++ (text ++ more), ?_, ?_⟩
                · rw [List.append_assoc, List.append_assoc, ← hmore]
                · simpa only [List.append_assoc] using hwhole
  intro cs e rest hread
  obtain ⟨⟨first, rest'⟩, hoperand', heq⟩ := Option.bind_eq_some_iff.mp hread
  obtain ⟨text, rfl, htext⟩ := hoperand hoperand'
  obtain ⟨more, hmore, hwhole⟩ := hchain rest'.length first text rest' (hfirst htext)
  rw [Option.some.inj heq] at hmore hwhole
  exact ⟨text ++ more, by rw [List.append_assoc, ← hmore], hwhole⟩

variable {P : Level → List Char → Formula → Prop} (h : Rules P)
include h

/-- A number is a numeral that a scalar can hold. -/
theorem takes_number : Rule.Takes (P .atom) number := by
  intro cs e rest hread
  cases cs with
  | nil => cases hread
  | cons c cs =>
      obtain ⟨hc, hread⟩ := Option.ite_none_right_eq_some.mp hread
      obtain ⟨v, hv, heq⟩ := Option.map_eq_some_iff.mp hread
      cases heq
      have hnumeral : numeral (c :: cs) = ((numeral (c :: cs)).1, (numeral (c :: cs)).2) := rfl
      obtain ⟨hcs, hstart, -⟩ := eq_append_of_numeral hnumeral
      have hwhole : numeral ((numeral (c :: cs)).1 ++ []) = ((numeral (c :: cs)).1, []) :=
        numeral_append hnumeral nofun
      rw [List.append_nil] at hwhole
      rw [List.takeWhile_cons_of_pos hc] at hstart
      obtain ⟨more, hmore⟩ := hstart
      exact ⟨_, hcs, h.number ⟨⟨c, _, hmore.symm, hc⟩, hwhole⟩ hv⟩

/-- An opaque fragment is what stands between its parentheses, without blanks at
its ends. -/
theorem takes_unknownCall : Rule.Takes (P .atom) unknownCall := by
  intro cs e rest hread
  obtain ⟨rest₁, hstart, hread⟩ := Option.bind_eq_some_iff.mp hread
  obtain ⟨rest₂, hopen, hread⟩ := Option.bind_eq_some_iff.mp hread
  obtain ⟨⟨text, rest₃⟩, hbalanced, hread⟩ := Option.bind_eq_some_iff.mp hread
  obtain ⟨rest₄, hclose, hread⟩ := Option.bind_eq_some_iff.mp hread
  cases hread
  obtain rfl := eq_append_of_afterStart hstart
  have hstop := stopsAt_of_symbol hopen
  obtain ⟨b, b', hb, hb', rfl⟩ := exists_of_symbol hopen
  obtain ⟨rfl, hdepth⟩ := eq_append_of_balanced hbalanced
  obtain rfl := eq_cons_of_char hclose
  -- the blanks behind the parenthesis were passed already
  have htext : StopsAt isSpace text := by
    cases text with
    | nil => nofun
    | cons c text => exact stopsAt_cons (hstop c rfl) _
  refine ⟨_, ?_, h.fragment hb hb' htext hdepth⟩
  simp

/-- A variable is a name. -/
theorem takes_variableName : Rule.Takes (P .atom) variableName := by
  intro cs e rest hread
  obtain ⟨⟨text, rest⟩, hname, heq⟩ := Option.map_eq_some_iff.mp hread
  cases heq
  exact ⟨text, eq_append_of_name hname, h.name (isName_of_name hname)⟩

section Nested

variable {sum : Rule Formula} (hsum : Rule.Takes (P .sum) sum)
include hsum

/-- A summation is its body, its index and its bounds, each with any blanks
around it. -/
theorem takes_sumCall : Rule.Takes (P .atom) (sumCall sum) := by
  intro cs e rest hread
  obtain ⟨rest₁, hstart, hread⟩ := Option.bind_eq_some_iff.mp hread
  obtain ⟨rest₂, hopen, hread⟩ := Option.bind_eq_some_iff.mp hread
  obtain ⟨⟨body, rest₃⟩, hbody, hread⟩ := Option.bind_eq_some_iff.mp hread
  obtain ⟨rest₄, hcomma, hread⟩ := Option.bind_eq_some_iff.mp hread
  obtain ⟨rest₅, hopen', hread⟩ := Option.bind_eq_some_iff.mp hread
  obtain ⟨⟨index, rest₆⟩, hindex, hread⟩ := Option.bind_eq_some_iff.mp hread
  obtain ⟨rest₇, hcomma', hread⟩ := Option.bind_eq_some_iff.mp hread
  obtain ⟨⟨start, rest₈⟩, hstart', hread⟩ := Option.bind_eq_some_iff.mp hread
  obtain ⟨rest₉, hcomma'', hread⟩ := Option.bind_eq_some_iff.mp hread
  obtain ⟨⟨stop, rest₁₀⟩, hstop, hread⟩ := Option.bind_eq_some_iff.mp hread
  obtain ⟨rest₁₁, hclose, hread⟩ := Option.bind_eq_some_iff.mp hread
  obtain ⟨rest₁₂, hclose', hread⟩ := Option.bind_eq_some_iff.mp hread
  -- each part of the call is what was taken, with the blanks around it
  cases hread
  obtain rfl := eq_append_of_afterStart hstart
  obtain ⟨b₁, c₁, hb₁, hc₁, rfl⟩ := exists_of_symbol hopen
  obtain ⟨body', rfl, he⟩ := hsum hbody
  obtain ⟨b₂, c₂, hb₂, hc₂, rfl⟩ := exists_of_symbol hcomma
  obtain ⟨b₃, c₃, hb₃, hc₃, rfl⟩ := exists_of_symbol hopen'
  obtain ⟨b₄, hb₄, hrest₅⟩ := exists_skip rest₅
  rw [eq_append_of_name hindex] at hrest₅
  obtain ⟨b₅, hb₅, hrest₆⟩ := exists_skip rest₆
  rw [eq_cons_of_char hcomma'] at hrest₆
  obtain ⟨start', rfl, ha⟩ := hsum hstart'
  obtain rfl := eq_cons_of_char hcomma''
  obtain ⟨stop', rfl, hd⟩ := hsum hstop
  obtain ⟨b₆, c₆, hb₆, hc₆, rfl⟩ := exists_of_symbol hclose
  obtain ⟨b₇, c₇, hb₇, hc₇, rfl⟩ := exists_of_symbol hclose'
  have hatom := h.summation hb₁ (hc₂.append hb₃) (hc₃.append hb₄) hb₅ (hc₆.append hb₇)
    (h.append_blanks hb₂ (h.blanks hc₁ he)) (isName_of_name hindex) ha (h.append_blanks hb₆ hd)
  refine ⟨_, ?_, h.append_blanks hc₇ hatom⟩
  rw [hrest₅, hrest₆]
  simp

/-- A call is the name of a function with one argument or two. -/
theorem takes_call : Rule.Takes (P .atom) (call sum) := by
  intro cs e rest hread
  obtain ⟨⟨function, rest₁⟩, hname, hread⟩ := Option.bind_eq_some_iff.mp hread
  obtain ⟨rest₂, hopen, hread⟩ := Option.bind_eq_some_iff.mp hread
  obtain ⟨⟨first, rest₃⟩, hfirst, hread⟩ := Option.bind_eq_some_iff.mp hread
  obtain ⟨rest₄, hclose, hread⟩ := Option.bind_eq_some_iff.mp hread
  obtain ⟨result, hresult, hread⟩ := Option.bind_eq_some_iff.mp hread
  cases hread
  obtain rfl := eq_append_of_name hname
  obtain ⟨b₁, c₁, hb₁, hc₁, rfl⟩ := exists_of_symbol hopen
  obtain ⟨text, rfl, ha⟩ := hsum hfirst
  obtain ⟨b₂, c₂, hb₂, hc₂, hrest⟩ := exists_of_symbol hclose
  -- a second argument is one that was read behind a comma
  cases hsecond : (char ',' rest₃).bind sum with
  | none =>
      rw [hsecond] at hrest hresult
      obtain rfl := hrest
      have hatom := h.call (isName_of_name hname) hb₁
        (h.append_blanks hb₂ (h.blanks hc₁ ha)) hresult
      refine ⟨_, ?_, h.append_blanks hc₂ hatom⟩
      simp
  | some second =>
      obtain ⟨d, rest₅⟩ := second
      rw [hsecond] at hrest hresult
      obtain rfl := hrest
      obtain ⟨rest₆, hcomma, hargument⟩ := Option.bind_eq_some_iff.mp hsecond
      obtain rfl := eq_cons_of_char hcomma
      obtain ⟨text', rfl, hd⟩ := hsum hargument
      have hatom := h.call₂ (isName_of_name hname) hb₁ (h.blanks hc₁ ha)
        (h.append_blanks hb₂ hd) hresult
      refine ⟨_, ?_, h.append_blanks hc₂ hatom⟩
      simp

/-- Parentheses around a sum make an atom of it. -/
theorem takes_group : Rule.Takes (P .atom) (group sum) := by
  intro cs e rest hread
  obtain ⟨rest₁, hopen, hread⟩ := Option.bind_eq_some_iff.mp hread
  obtain ⟨⟨e', rest₂⟩, he, hread⟩ := Option.bind_eq_some_iff.mp hread
  obtain ⟨rest₃, hclose, hread⟩ := Option.bind_eq_some_iff.mp hread
  cases hread
  obtain rfl := eq_cons_of_char hopen
  obtain ⟨text, rfl, htext⟩ := hsum he
  obtain rfl := eq_cons_of_char hclose
  refine ⟨_, ?_, h.group htext⟩
  simp

/-- An atom is the first of these that can be read. -/
theorem takes_atom : Rule.Takes (P .atom) (atom sum) := by
  intro cs e rest hread
  obtain ⟨⟨e', rest'⟩, hfirst, heq⟩ := Option.map_eq_some_iff.mp hread
  cases heq
  have hfront : ∃ text, skip cs = text ++ rest' ∧ P .atom text e := by
    simp only [Option.orElse_eq_orElse, Option.orElse_eq_or, Option.or_eq_some_iff] at hfirst
    rcases hfirst with hread | ⟨-, hread | ⟨-, hread | ⟨-, hread | ⟨-, hread | ⟨-, hread⟩⟩⟩⟩⟩
    · exact takes_number h hread
    · exact takes_sumCall h hsum hread
    · exact takes_unknownCall h hread
    · exact takes_call h hsum hread
    · exact takes_variableName h hread
    · exact takes_group h hsum hread
  obtain ⟨text, htext, hatom⟩ := hfront
  obtain ⟨b, hb, hcs⟩ := exists_skip cs
  obtain ⟨b', hb', hrest⟩ := exists_skip rest'
  refine ⟨b ++ text ++ b', ?_, h.append_blanks hb' (h.blanks hb hatom)⟩
  rw [List.append_assoc, ← hrest, List.append_assoc, ← htext, ← hcs]

end Nested

/-- A power is an atom, or one raised to a signed power, and may have signs
before it. -/
theorem takes_power {signed atom : Rule Formula} (hsigned : Rule.Takes (P .signed) signed)
    (hatom : Rule.Takes (P .atom) atom) : Rule.Takes (P .signed) (power signed atom) := by
  intro cs e rest hread
  obtain ⟨⟨base, rest'⟩, hbase, hread⟩ := Option.bind_eq_some_iff.mp hread
  obtain ⟨text, hcs, ha⟩ := hatom hbase
  simp only at hread
  split at hread
  · next hexponent =>
      cases hread
      obtain ⟨after, hsign, hoperand⟩ := Option.bind_eq_some_iff.mp hexponent
      obtain ⟨text', rfl, hd⟩ := hsigned hoperand
      -- the sign is one of two, with blanks on both sides
      obtain ⟨b, b', sign, hb, hb', hsigns, hrest⟩ : ∃ b b' sign, IsBlanks b ∧ IsBlanks b' ∧
          (sign = ['*', '*'] ∨ sign = ['^']) ∧ rest' = b ++ (sign ++ (b' ++ (text' ++ rest))) := by
        rw [powerSign] at hsign
        split at hsign
        · next more hmore =>
            obtain ⟨b, hb, hrest⟩ := exists_skip rest'
            obtain ⟨b', hb', hmore'⟩ := exists_skip more
            rw [Option.some.inj hsign] at hmore'
            exact ⟨b, b', _, hb, hb', .inl rfl, by rw [hrest, hmore, hmore']; rfl⟩
        · next more hmore =>
            obtain ⟨b, b', hb, hb', hrest⟩ := exists_of_skip hmore
            rw [Option.some.inj hsign] at hrest
            exact ⟨b, b', _, hb, hb', .inr rfl, hrest⟩
        · cases hsign
      refine ⟨_, ?_, h.power (h.append_blanks hb ha) hsigns (h.blanks hb' hd)⟩
      rw [hcs, hrest]
      simp
  · cases hread
    exact ⟨text, hcs, h.base ha⟩

/-- A star or a slash joins a product with one more power. -/
theorem takesSign_productSign : Rule.TakesSign (P .product) (P .signed) productSign := by
  intro cs combine rest hsign
  rw [productSign] at hsign
  split at hsign
  · cases hsign
  · next more _ hmore =>
      cases hsign
      obtain ⟨b, b', hb, hb', hcs⟩ := exists_of_skip hmore
      refine ⟨b ++ '*' :: b', by simpa using hcs, fun ha hd => ?_⟩
      simpa using h.times (h.append_blanks hb ha) (h.blanks hb' hd)
  · next more hmore =>
      cases hsign
      obtain ⟨b, b', hb, hb', hcs⟩ := exists_of_skip hmore
      refine ⟨b ++ '/' :: b', by simpa using hcs, fun ha hd => ?_⟩
      simpa using h.over (h.append_blanks hb ha) (h.blanks hb' hd)
  · cases hsign

/-- A plus or a minus joins a sum with one more product. -/
theorem takesSign_sumSign : Rule.TakesSign (P .sum) (P .product) sumSign := by
  intro cs combine rest hsign
  rw [sumSign] at hsign
  split at hsign
  · next more hmore =>
      cases hsign
      obtain ⟨b, b', hb, hb', hcs⟩ := exists_of_skip hmore
      refine ⟨b ++ '+' :: b', by simpa using hcs, fun ha hd => ?_⟩
      simpa using h.plus (h.append_blanks hb ha) (h.blanks hb' hd)
  · next more hmore =>
      cases hsign
      obtain ⟨b, b', hb, hb', hcs⟩ := exists_of_skip hmore
      refine ⟨b ++ '-' :: b', by simpa using hcs, fun ha hd => ?_⟩
      simpa using h.minus (h.append_blanks hb ha) (h.blanks hb' hd)
  · cases hsign

/-- So a sum is a chain of chains. -/
theorem takes_sum {signed : Rule Formula} (hsigned : Rule.Takes (P .signed) signed) :
    Rule.Takes (P .sum) (sum signed) :=
  takes_chained (takesSign_sumSign h) (takes_chained (takesSign_productSign h) hsigned h.factor)
    h.addend

/-- The induction is over the depth to which signs and parentheses may be
nested. -/
theorem takes_signed (depth : ℕ) : Rule.Takes (P .signed) (signed depth) := by
  induction depth with
  | zero =>
      intro cs e rest hread
      cases hread
  | succ depth ih =>
      intro cs e rest hread
      simp only [signed] at hread
      split at hread
      · next rest' hminus =>
          obtain ⟨⟨e', rest''⟩, hoperand, heq⟩ := Option.map_eq_some_iff.mp hread
          cases heq
          obtain ⟨b, b', hb, hb', rfl⟩ := exists_of_symbol hminus
          obtain ⟨text, rfl, htext⟩ := ih hoperand
          refine ⟨_, ?_, h.blanks hb (h.negative (h.blanks hb' htext))⟩
          simp
      · exact takes_power h ih (takes_atom h (takes_sum h ih)) hread

end Reader

/-- **What the rules keep holds of everything that is read**: a formula that
makes up a whole text is related to it. -/
theorem Rules.of_ofChars? {P : Level → List Char → Formula → Prop} (h : Rules P) {cs : List Char}
    {e : Formula} (he : ofChars? cs = some e) : P .sum cs e := by
  rw [ofChars?] at he
  split at he
  · next e' hread =>
      cases he
      obtain ⟨text, rfl, htext⟩ := takes_sum h (takes_signed h _) hread
      rwa [List.append_nil]
  · cases he

end CostAnalysis.Formula
