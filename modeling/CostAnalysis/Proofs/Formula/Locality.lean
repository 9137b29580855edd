import CostAnalysis.Proofs.Formula.RoundTrip
import CostAnalysis.Proofs.Formula.Rules

/-!
# What is read is read everywhere

A formula that was read off the front of one text is read off the front of every
text that goes on with something that binds less.  So whether a part of a text
can be read depends on the part alone (`readsTerms_of_ofChars?`), and parts that
can be read make up texts that can be read.

Each rule of the grammar keeps the relations `ReadsAtom`, `ReadsPower`,
`ReadsProduct` and `ReadsTerms` for its level (`rules_readsLevel`).  The reader
passes over blanks around every atom and sign, and so the relations allow blanks
at both ends.

**What this is for.**  A text that cannot be read as a whole is cut at its plus
signs, and its pieces are read one by one.  If all of them can be read, so can
their sum: each piece is read in the place in which it stands.
-/

namespace CostAnalysis.Formula

open Reader Text Relation

variable {b cs : List Char} {e : Formula}

/-! ## Blanks -/

theorem atom_skip (sum : Rule Formula) (cs : List Char) : atom sum (skip cs) = atom sum cs := by
  simp [atom]

section Blanks

variable (hb : IsBlanks b)
include hb

/-- Blanks before an atom do not matter. -/
theorem ReadsAtom.blanks (h : ReadsAtom cs e) : ReadsAtom (b ++ cs) e := by
  intro n rest hn hrest
  rw [List.append_assoc, ← atom_skip, skip_blanks hb, atom_skip]
  exact h n rest (by simp at hn; omega) hrest

theorem ReadsAtom.append_blanks (h : ReadsAtom cs e) : ReadsAtom (cs ++ b) e := by
  intro n rest hn hrest
  rw [List.append_assoc, h n (b ++ rest) (by simp at hn; omega) (hrest.blanks hb), skip_blanks hb]

/-- Blanks before a power do not matter. -/
theorem ReadsPower.blanks (h : ReadsPower cs e) : ReadsPower (b ++ cs) e := by
  intro n rest hn hrest
  rw [List.append_assoc, ← signed_skip, skip_blanks hb, signed_skip]
  exact h n rest (by simp at hn; omega) hrest

theorem ReadsPower.append_blanks (h : ReadsPower cs e) : ReadsPower (cs ++ b) e := by
  intro n rest hn hrest
  rw [List.append_assoc, h n (b ++ rest) (by simp at hn; omega) (hrest.blanks hb), skip_blanks hb]

theorem ReadsProduct.blanks (h : ReadsProduct cs e) : ReadsProduct (b ++ cs) e := by
  intro n rest hn hrest
  rw [List.append_assoc, ← signed_skip, skip_blanks hb, signed_skip]
  exact h n rest (by simp at hn; omega) hrest

theorem ReadsProduct.append_blanks (h : ReadsProduct cs e) : ReadsProduct (cs ++ b) e := by
  intro n rest hn hrest
  rw [List.append_assoc, ← skip_blanks hb rest]
  exact h n (b ++ rest) (by simp at hn; omega) (hrest.blanks hb)

theorem ReadsPiece.append_blanks (h : ReadsPiece cs e) : ReadsPiece (cs ++ b) e := by
  refine ⟨fun n rest acc hn hrest => ?_, fun rest => ?_⟩
  · rw [List.append_assoc, ← skip_blanks hb rest]
    exact h.step n (b ++ rest) acc (by simp at hn; omega) (hrest.blanks hb)
  · rw [List.append_assoc]
    exact h.mayFollow (b ++ rest)

theorem ReadsTerms.blanks (h : ReadsTerms cs e) : ReadsTerms (b ++ cs) e := by
  induction h with
  | product h => exact .product (ReadsProduct.blanks hb h)
  | piece _ hd ih =>
      rw [← List.append_assoc]
      exact .piece ih hd

theorem ReadsTerms.append_blanks (h : ReadsTerms cs e) : ReadsTerms (cs ++ b) e := by
  cases h with
  | product h => exact .product (ReadsProduct.append_blanks hb h)
  | piece h hd =>
      rw [List.append_assoc]
      exact .piece h (hd.append_blanks hb)

end Blanks

/-! ## Rules -/

/-- The text is read at the level, and a sum term by term. -/
def ReadsLevel : Level → List Char → Formula → Prop
  | .atom => ReadsAtom
  | .signed => ReadsPower
  | .product => ReadsProduct
  | .sum => ReadsTerms

/-- What the rules put together is read everywhere. -/
theorem rules_readsLevel : Rules ReadsLevel where
  blanks {level _ _ _} hb h := by
    cases level with
    | atom => exact ReadsAtom.blanks hb h
    | signed => exact ReadsPower.blanks hb h
    | product => exact ReadsProduct.blanks hb h
    | sum => exact ReadsTerms.blanks hb h
  append_blanks {level _ _ _} hb h := by
    cases level with
    | atom => exact ReadsAtom.append_blanks hb h
    | signed => exact ReadsPower.append_blanks hb h
    | product => exact ReadsProduct.append_blanks hb h
    | sum => exact ReadsTerms.append_blanks hb h
  number hnumeral hv := readsAtom_number hnumeral hv
  name {text} hname := by
    have hread : ReadsAtom (String.ofList text).toList (.var (String.ofList text)) :=
      readsAtom_var (by simpa using hname)
    rwa [String.toList_ofList] at hread
  fragment hb hb' hstop htext := readsAtom_unknownCall hb hb' hstop (balanced_of_depthAfter htext)
  call hname hb ha happly := ha.readsSum.call hname hb happly
  call₂ hname hb ha hd happly := ha.readsSum.call_two hd.readsSum hname hb happly
  summation hb₁ hb₂ hb₃ hb₄ hb₅ he hname ha hd :=
    he.readsSum.sumCall hname ha.readsSum hd.readsSum hb₁ hb₂ hb₃ hb₄ hb₅
  group he := he.readsSum.parenthesized
  base he := he.readsPower
  power ha hsign hd := by
    rcases hsign with rfl | rfl
    · exact ha.pow hd
    · exact ha.caret hd
  negative he := he.minus
  factor he := he.readsProduct
  times ha hd := ha.mul hd
  «over» ha hd := ha.div hd
  addend he := .product he
  plus ha hd := ha.piece (hd.plus_piece isBlanks_nil isBlanks_nil)
  minus ha hd := ha.piece (hd.minus_piece isBlanks_nil isBlanks_nil rfl)

/-- **A formula that makes up a whole text is a sum of terms** that are read
everywhere. -/
theorem readsTerms_of_ofChars? (h : ofChars? cs = some e) : ReadsTerms cs e :=
  rules_readsLevel.of_ofChars? h

end CostAnalysis.Formula
