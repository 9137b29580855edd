import CostAnalysis.Proofs.Formula.Rules
import CostAnalysis.Proofs.Formula.Value

/-!
# The grammar of formulas

`Spells level text e` says that a text without blanks is spelled as the formula
`e`, by the rules of the grammar alone, at the level of an atom, a signed power,
a product or a sum.

**The reader is sound.**  What it reads is spelled that way
(`spells_of_ofChars?`): the rules of the grammar spell what they put together,
as long as there are no blanks between the parts.

**Sums are read addend by addend.**  A plus sign outside of parentheses divides
a spelled text into two that are spelled, and the values add up
(`Spells.split`).  That rests on the nesting of spelled texts: only at the level
of a sum does a plus sign stand outside of parentheses.

**Without blanks.**  The grammar is stated for texts from which the blanks were
taken, which is how the work of a recurrence is read.  The general rules have
blanks around every part; an induction over what is read specializes to these
where there are none (`rules_spells`).
-/

namespace CostAnalysis.Formula

open Reader Text

/-- The text is spelled as the formula. -/
inductive Spells : Level → List Char → Formula → Prop
  | number {text : List Char} {v : Scalar} (hne : text ≠ [])
      (hdigits : ∀ c ∈ text, isAsciiDigit c = true ∨ c = '.') (hread : Scalar.read? text = some v) :
      Spells .atom text (.num v)
  | name {text : List Char} (hname : IsName text) : Spells .atom text (.var (String.ofList text))
  | fragment {text : List Char} (htext : Balanced text) :
      Spells .atom ("unknown".toList ++ ('(' :: text ++ [')']))
        (.unknown (String.ofList (trim text)))
  | call {function text : List Char} {a e : Formula} (hname : IsName function)
      (ha : Spells .sum text a) (happly : apply (String.ofList function) a none = some e) :
      Spells .atom (function ++ ('(' :: text ++ [')'])) e
  | call₂ {function text text' : List Char} {a b e : Formula} (hname : IsName function)
      (ha : Spells .sum text a) (hb : Spells .sum text' b)
      (happly : apply (String.ofList function) a (some b) = some e) :
      Spells .atom (function ++ ('(' :: (text ++ ',' :: text') ++ [')'])) e
  | summation {body index start stop : List Char} {e a b : Formula} (he : Spells .sum body e)
      (hname : IsName index) (ha : Spells .sum start a) (hb : Spells .sum stop b) :
      Spells .atom ("Sum".toList ++ ('(' :: (body ++ ',' ::
        ('(' :: (index ++ ',' :: (start ++ ',' :: stop)) ++ [')'])) ++ [')']))
        (Formula.sum e (String.ofList index) a b)
  | group {text : List Char} {e : Formula} (he : Spells .sum text e) :
      Spells .atom ('(' :: text ++ [')']) e
  | base {text : List Char} {e : Formula} (he : Spells .atom text e) : Spells .signed text e
  | power {text sign text' : List Char} {a b : Formula} (ha : Spells .atom text a)
      (hsign : sign = ['*', '*'] ∨ sign = ['^']) (hb : Spells .signed text' b) :
      Spells .signed (text ++ (sign ++ text')) (a.pow b)
  | negative {text : List Char} {e : Formula} (he : Spells .signed text e) :
      Spells .signed ('-' :: text) e.neg
  | factor {text : List Char} {e : Formula} (he : Spells .signed text e) : Spells .product text e
  | times {text text' : List Char} {a b : Formula} (ha : Spells .product text a)
      (hb : Spells .signed text' b) : Spells .product (text ++ '*' :: text') (a.mul b)
  | over {text text' : List Char} {a b : Formula} (ha : Spells .product text a)
      (hb : Spells .signed text' b) : Spells .product (text ++ '/' :: text') (a.div b)
  | addend {text : List Char} {e : Formula} (he : Spells .product text e) : Spells .sum text e
  | plus {text text' : List Char} {a b : Formula} (ha : Spells .sum text a)
      (hb : Spells .product text' b) : Spells .sum (text ++ '+' :: text') (a.add b)
  | minus {text text' : List Char} {a b : Formula} (ha : Spells .sum text a)
      (hb : Spells .product text' b) : Spells .sum (text ++ '-' :: text') (a.sub b)

/-! ## What is read

Blanks are allowed almost everywhere by the reader, and by no rule of `Spells`.
Since a text without blanks has only parts without blanks, each rule of the
reader becomes the rule of the grammar of the same name. -/

/-- A text without blanks. -/
def Reader.Compact (cs : List Char) : Prop :=
  ∀ c ∈ cs, isSpace c = false

namespace Reader

variable {c : Char} {b cs ds : List Char}

theorem compact_append : Compact (cs ++ ds) ↔ Compact cs ∧ Compact ds :=
  List.forall_mem_append

theorem compact_cons : Compact (c :: cs) ↔ isSpace c = false ∧ Compact cs :=
  List.forall_mem_cons

/-- There are no blanks in such a text. -/
theorem Compact.eq_nil (h : Compact b) (hb : IsBlanks b) : b = [] :=
  List.eq_nil_iff_forall_not_mem.mpr fun c hc => by simpa [h c hc] using hb c hc

end Reader

/-- What is read from a text without blanks is spelled there. -/
theorem rules_spells : Rules fun level text e => Compact text → Spells level text e where
  blanks hb he hc := by
    obtain ⟨hcb, hc⟩ := compact_append.mp hc
    rw [hcb.eq_nil hb]
    exact he hc
  append_blanks hb he hc := by
    obtain ⟨hc, hcb⟩ := compact_append.mp hc
    rw [hcb.eq_nil hb, List.append_nil]
    exact he hc
  number {text v} hnumeral hv _ := by
    obtain ⟨c, more, rfl, -⟩ := hnumeral.start
    exact .number (List.cons_ne_nil c more) (eq_append_of_numeral hnumeral.whole).2.2 hv
  name hname _ := .name hname
  fragment hb hb' _ htext hc := by
    simp only [compact_append, compact_cons] at hc
    rw [hc.2.1.eq_nil hb, hc.2.2.2.1.eq_nil hb']
    exact .fragment htext
  call hname hb ha happly hc := by
    simp only [compact_append, compact_cons] at hc
    rw [hc.2.1.eq_nil hb]
    exact .call hname (ha hc.2.2.2.1) happly
  call₂ hname hb ha hd happly hc := by
    simp only [compact_append, compact_cons] at hc
    obtain ⟨-, hcb, -, ha', -, hd', -⟩ := hc
    rw [hcb.eq_nil hb]
    simpa using Spells.call₂ hname (ha ha') (hd hd') happly
  summation hb₁ hb₂ hb₃ hb₄ hb₅ he hname ha hd hc := by
    simp only [compact_append, compact_cons] at hc
    obtain ⟨-, h₁, -, he', -, h₂, -, h₃, -, h₄, -, ha', -, hd', -, h₅, -⟩ := hc
    rw [h₁.eq_nil hb₁, h₂.eq_nil hb₂, h₃.eq_nil hb₃, h₄.eq_nil hb₄, h₅.eq_nil hb₅]
    simpa using Spells.summation (he he') hname (ha ha') (hd hd')
  group he hc := .group (he (compact_append.mp (compact_cons.mp hc).2).1)
  base he hc := .base (he hc)
  power ha hsign hd hc := by
    simp only [compact_append] at hc
    exact .power (ha hc.1) hsign (hd hc.2.2)
  negative he hc := .negative (he (compact_cons.mp hc).2)
  factor he hc := .factor (he hc)
  times ha hd hc := by
    simp only [compact_append, compact_cons] at hc
    exact .times (ha hc.1) (hd hc.2.2)
  «over» ha hd hc := by
    simp only [compact_append, compact_cons] at hc
    exact .over (ha hc.1) (hd hc.2.2)
  addend he hc := .addend (he hc)
  plus ha hd hc := by
    simp only [compact_append, compact_cons] at hc
    exact .plus (ha hc.1) (hd hc.2.2)
  minus ha hd hc := by
    simp only [compact_append, compact_cons] at hc
    exact .minus (ha hc.1) (hd hc.2.2)

/-- **The reader is sound**: a formula that makes up a whole text is spelled
there. -/
theorem spells_of_ofChars? {cs : List Char} {e : Formula} (hcs : Compact cs)
    (h : ofChars? cs = some e) : Spells .sum cs e :=
  rules_spells.of_ofChars? h hcs

/-! ## The nesting of spelled texts

By induction over the derivation, for all levels at once: parentheses are
balanced, and below the level of a sum no plus sign stands outside of them. -/

variable {level : Level} {text : List Char} {e : Formula}

/-- Parts of names do not matter for the nesting. -/
theorem isLevel_of_isNamePart {c : Char} (h : isNamePart c = true) : isLevel c = true := by
  simp only [isLevel, Bool.and_eq_true, bne_iff_ne]
  refine ⟨⟨?_, ?_⟩, ?_⟩ <;>
  · rintro rfl
    exact absurd h (by decide)

theorem IsName.undivided (h : IsName text) : Undivided text :=
  undivided_of_isLevel fun c hc => isLevel_of_isNamePart (h.all c hc)

/-- What stands in a number may stand in a name. -/
theorem isNamePart_of_isNumeral {c : Char} (h : isAsciiDigit c = true ∨ c = '.') :
    isNamePart c = true := by
  rcases h with h | rfl
  · exact isNamePart_of_isAsciiDigit h
  · decide

/-- Only at the level of a sum does a plus sign stand outside of parentheses. -/
theorem Spells.nested (h : Spells level text e) :
    Balanced text ∧ (level ≠ .sum → Undivided text) := by
  -- above the level of a sum it is enough that the text is undivided
  have habove : ∀ {level : Level} {text : List Char}, Undivided text →
      Balanced text ∧ (level ≠ .sum → Undivided text) :=
    fun htext => ⟨htext.balanced, fun _ => htext⟩
  have hcomma : ∀ {a b : List Char}, Balanced a → Balanced b → Balanced (a ++ ',' :: b) :=
    fun ha hb => (ha.append_cons_iff (by decide) (by decide)).mpr hb
  induction h with
  | number _ hdigits _ =>
      exact habove (undivided_of_isLevel fun c hc =>
        isLevel_of_isNamePart (isNamePart_of_isNumeral (hdigits c hc)))
  | name hname => exact habove hname.undivided
  | fragment htext =>
      have hword := List.all_eq_true.mp (by decide : "unknown".toList.all isLevel = true)
      exact habove ((undivided_of_isLevel hword).append htext.undivided)
  | call hname _ _ ih => exact habove (hname.undivided.append ih.1.undivided)
  | call₂ hname _ _ _ iha ihb =>
      exact habove (hname.undivided.append (hcomma iha.1 ihb.1).undivided)
  | summation _ hname _ _ ihe iha ihb =>
      have hbounds := hcomma hname.undivided.balanced (hcomma iha.1 ihb.1)
      have hbody := hcomma ihe.1 hbounds.undivided.balanced
      have hword := List.all_eq_true.mp (by decide : "Sum".toList.all isLevel = true)
      exact habove ((undivided_of_isLevel hword).append hbody.undivided)
  | group _ ih => exact habove ih.1.undivided
  | base _ ih | factor _ ih => exact habove (ih.2 (by decide))
  | power _ hsigns _ iha ihb =>
      refine habove ((iha.2 (by decide)).append (Undivided.append ?_ (ihb.2 (by decide))))
      rcases hsigns with rfl | rfl
      · exact undivided_of_isLevel (List.all_eq_true.mp (by decide))
      · exact undivided_of_isLevel (List.all_eq_true.mp (by decide))
  | negative _ ih => exact habove ((ih.2 (by decide)).cons (by decide))
  | times _ _ iha ihb | «over» _ _ iha ihb =>
      exact habove ((iha.2 (by decide)).append ((ihb.2 (by decide)).cons (by decide)))
  | addend _ ih => exact ⟨ih.1, fun hne => absurd rfl hne⟩
  | plus _ _ iha ihb | minus _ _ iha ihb =>
      refine ⟨(iha.1.append_cons_iff (by decide) (by decide)).mpr ihb.1, fun hne => ?_⟩
      exact absurd rfl hne

theorem Spells.balanced (h : Spells level text e) : Balanced text :=
  h.nested.1

/-- A spelled text ends with a name, a number or a parenthesis. -/
theorem Spells.getLast? (h : Spells level text e) :
    ∃ c, text.getLast? = some c ∧ (isNamePart c = true ∨ c = ')') := by
  have hname : ∀ {text : List Char}, text ≠ [] → (∀ c ∈ text, isNamePart c = true) →
      ∃ c, text.getLast? = some c ∧ (isNamePart c = true ∨ c = ')') := by
    intro text hne hall
    refine ⟨text.getLast hne, List.getLast?_eq_some_getLast hne, Or.inl ?_⟩
    exact hall _ (List.getLast_mem hne)
  -- a call ends with its parenthesis, a leaf with its last character, all else
  -- as its last part does
  have hclose : ∀ front text : List Char,
      (front ++ ('(' :: text ++ [')'])).getLast? = some ')' := by
    intro front text
    rw [← List.append_assoc, List.getLast?_concat]
  induction h with
  | number hne hdigits _ => exact hname hne fun c hc => isNamePart_of_isNumeral (hdigits c hc)
  | name h =>
      refine hname ?_ h.all
      obtain ⟨c, rest, rfl, -⟩ := h
      exact List.cons_ne_nil c rest
  | fragment | call | call₂ | summation => exact ⟨')', hclose _ _, Or.inr rfl⟩
  | group => exact ⟨')', hclose [] _, Or.inr rfl⟩
  | base _ ih | factor _ ih | addend _ ih => exact ih
  | power _ _ _ _ ih | negative _ ih | times _ _ _ ih | «over» _ _ _ ih | plus _ _ _ ih
  | minus _ _ _ ih =>
      obtain ⟨c, hc, hclass⟩ := ih
      exact ⟨c, by simp [List.getLast?_append, List.getLast?_cons, hc], hclass⟩

/-! ## Sums -/

/-- Two ways to divide a text at a sign: at the same place, or one before the
other. -/
theorem append_cons_eq_append_cons {x y a b : List Char} {c d : Char}
    (h : x ++ c :: y = a ++ d :: b) :
    (a = x ∧ c = d ∧ b = y) ∨ (∃ z, a = x ++ c :: z ∧ y = z ++ d :: b) ∨
      ∃ z, x = a ++ d :: z ∧ b = z ++ c :: y := by
  rcases List.append_eq_append_iff.mp h with ⟨z, rfl, hz⟩ | ⟨z, rfl, hz⟩
  · cases z with
    | nil =>
        cases hz
        exact Or.inl ⟨by simp, rfl, rfl⟩
    | cons e z =>
        cases hz
        exact Or.inr (Or.inl ⟨z, rfl, rfl⟩)
  · cases z with
    | nil =>
        cases hz
        exact Or.inl ⟨by simp, rfl, rfl⟩
    | cons e z =>
        cases hz
        exact Or.inr (Or.inr ⟨z, rfl, rfl⟩)

/-- **Sums are read addend by addend**: a plus sign outside of parentheses
divides a spelled text into two, whose values add up. -/
theorem Spells.split {front back : List Char} (h : Spells .sum (front ++ '+' :: back) e)
    (hfront : Balanced front) :
    ∃ a b, Spells .sum front a ∧ Spells .sum back b ∧
      ∀ I, e.value I = a.value I + b.value I := by
  generalize htext : front ++ '+' :: back = text at h
  generalize hlevel : Level.sum = level at h
  induction h generalizing back with
  | addend h _ =>
      subst htext
      -- a product has no plus sign outside of parentheses
      exact absurd hfront (h.nested.2 (by decide)).not_balanced
  | @plus text text' a b ha hb iha _ =>
      -- the sign is that of this rule, or it lies in the sum before it, or in
      -- the product behind it
      rcases append_cons_eq_append_cons htext with ⟨rfl, -, rfl⟩ | ⟨z, rfl, rfl⟩ | ⟨z, rfl, rfl⟩
      · exact ⟨a, b, ha, .addend hb, fun I => value_add I a b⟩
      · obtain ⟨a', b', ha', hb', hvalue⟩ := iha rfl rfl
        refine ⟨a', b'.add b, ha', .plus hb' hb, fun I => ?_⟩
        rw [value_add, value_add, hvalue, add_assoc]
      · have hz := (ha.balanced.append_cons_iff (by decide) (by decide)).mp hfront
        exact absurd hz (hb.nested.2 (by decide)).not_balanced
  | @minus text text' a b ha hb iha _ =>
      rcases append_cons_eq_append_cons htext with ⟨-, hsign, -⟩ | ⟨z, rfl, rfl⟩ | ⟨z, rfl, rfl⟩
      · cases hsign
      · obtain ⟨a', b', ha', hb', hvalue⟩ := iha rfl rfl
        refine ⟨a', b'.sub b, ha', .minus hb' hb, fun I => ?_⟩
        rw [value_sub, value_sub, hvalue, add_sub_assoc]
      · have hz := (ha.balanced.append_cons_iff (by decide) (by decide)).mp hfront
        exact absurd hz (hb.nested.2 (by decide)).not_balanced
  | _ => cases hlevel

end CostAnalysis.Formula
