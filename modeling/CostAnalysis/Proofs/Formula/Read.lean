import CostAnalysis.Proofs.Formula.Rules

/-!
# What can be read

The reader never builds a tree by hand.  Every formula that it returns is made
by the simplifying constructors from numbers whose parts fit their words, names
and opaque fragments, so a property of these that the constructors keep is one
of all formulas that can be read, strictly (`Built.of_read?`) or with repairs
(`Built.of_readLenient`).

No rule of the grammar makes anything else (`Built.rules`), and so this is an
instance of the induction over what is read.

**What this is for.**  The reduction of a formula starts from its numbers, and
keeps them in order only if they are so at the beginning: their parts fit their
words, or they are the mark of an overflow.  That is such a property, given by
its leaves and one fact for each constructor (`Built`), and it says nothing
about texts.
-/

namespace CostAnalysis

open Numeric Text

namespace Scalar

/-- A fraction that can be formed fits. -/
theorem Fits.of_ofFraction? {num den : ℤ} {s : Scalar} (h : ofFraction? num den = some s) :
    s.Fits := by
  obtain ⟨hfail, hs⟩ := Option.ite_none_left_eq_some.mp h
  simp only [Bool.or_eq_true, decide_eq_true_eq, Bool.not_eq_true', not_or,
    Bool.not_eq_false] at hfail
  obtain ⟨⟨hzero, hnum⟩, hden⟩ := hfail
  rw [← Option.some.inj hs, Rat.divInt_eq_div]
  exact fits_div hzero hnum hden

/-- A decimal number that can be read fits. -/
theorem Fits.of_readDecimal? {whole fraction : List Char} {s : Scalar}
    (h : readDecimal? whole fraction = some s) : s.Fits := by
  simp only [readDecimal?] at h
  obtain ⟨-, h⟩ := Option.ite_none_left_eq_some.mp h
  -- whether or not there are digits before the point, a fraction is formed at
  -- the end
  split at h
  all_goals
    obtain ⟨integral, -, h⟩ := Option.bind_eq_some_iff.mp h
    obtain ⟨decimals, -, h⟩ := Option.bind_eq_some_iff.mp h
    obtain ⟨-, h⟩ := Option.ite_none_left_eq_some.mp h
    exact .of_ofFraction? h

/-- The parts of a number that was read fit their words. -/
theorem Fits.of_read? {cs : List Char} {s : Scalar} (h : read? cs = some s) : s.Fits := by
  simp only [read?] at h
  split at h
  · obtain ⟨n, -, h⟩ := Option.bind_eq_some_iff.mp h
    obtain ⟨d, -, h⟩ := Option.bind_eq_some_iff.mp h
    exact .of_ofFraction? h
  · split at h
    · exact .of_readDecimal? h
    · obtain ⟨z, hz, rfl⟩ := Option.map_eq_some_iff.mp h
      exact .ofInt (Option.filter_eq_some_iff.mp hz).2

end Scalar

namespace Formula

open Reader

/-- The leaves that can be read have the property, and the constructors keep
it. -/
structure Built (P : Formula → Prop) : Prop where
  num : ∀ {v : Scalar}, v.Fits → P (.num v)
  var : ∀ {name : String}, IsName name.toList → P (.var name)
  unknown : ∀ t : String, P (.unknown t)
  add : ∀ {a b : Formula}, P a → P b → P (a.add b)
  neg : ∀ {a : Formula}, P a → P a.neg
  mul : ∀ {a b : Formula}, P a → P b → P (a.mul b)
  div : ∀ {a b : Formula}, P a → P b → P (a.div b)
  pow : ∀ {a b : Formula}, P a → P b → P (a.pow b)
  log : ∀ {a : Formula}, P a → P a.log
  min : ∀ {a b : Formula}, P a → P b → P (a.min b)
  max : ∀ {a b : Formula}, P a → P b → P (a.max b)
  sum : ∀ {body start stop : Formula} {index : String}, P body → IsName index.toList → P start →
    P stop → P (body.sum index start stop)

namespace Built

variable {P : Formula → Prop} (h : Built P)
include h

/-- What a function is applied to gives a formula with the property. -/
theorem of_apply {function : String} {first e : Formula} {second : Option Formula}
    (hfirst : P first) (hsecond : ∀ b ∈ second, P b)
    (happly : apply function first second = some e) : P e := by
  cases second with
  | some b =>
      simp only [apply] at happly
      split at happly
      · cases happly
        exact h.min hfirst (hsecond b rfl)
      · split at happly
        · cases happly
          exact h.max hfirst (hsecond b rfl)
        · cases happly
  | none =>
      simp only [apply] at happly
      split at happly
      · cases happly
        exact h.log hfirst
      · split at happly
        · cases happly
          exact h.pow hfirst (h.num Scalar.half_fits)
        · split at happly
          · cases happly
            exact hfirst
          · cases happly

/-- The rules of the grammar keep the property, whatever the texts are. -/
theorem rules : Rules fun _ _ e => P e where
  blanks _ he := he
  append_blanks _ he := he
  number _ hv := h.num (.of_read? hv)
  name hname := h.var (by simpa using hname)
  fragment _ _ _ _ := h.unknown _
  call _ _ ha happly := h.of_apply ha (by simp) happly
  call₂ _ _ ha hd happly := h.of_apply ha (by simpa using hd) happly
  summation _ _ _ _ _ he hname ha hd := h.sum he (by simpa using hname) ha hd
  group he := he
  base he := he
  power ha _ hd := h.pow ha hd
  negative he := h.neg he
  factor he := he
  times ha hd := h.mul ha hd
  «over» ha hd := h.div ha hd
  addend he := he
  plus ha hd := h.add ha hd
  minus ha hd := h.add ha (h.neg hd)

theorem of_ofChars? {cs : List Char} {e : Formula} (he : ofChars? cs = some e) : P e :=
  h.rules.of_ofChars? he

/-- **Every formula that can be read is built** from leaves by the
constructors. -/
theorem of_read? {text : String} {e : Formula} (he : read? text = some e) : P e :=
  h.of_ofChars? he

/-- The same with pieces that had to be repaired. -/
theorem of_readLenient (text : String) : P (readLenient text).1 := by
  rw [readLenient]
  split
  · next e he => exact h.of_read? he
  · refine List.foldlRecOn (motive := fun state : Formula × List String => P state.1) _ _
      (h.num Scalar.zero_fits) ?_
    intro state hstate piece _
    simp only [addPiece]
    split
    · exact hstate
    · split
      · next e he => exact h.add hstate (h.of_ofChars? he)
      · exact h.add hstate (h.unknown _)

end Built

end Formula

end CostAnalysis
