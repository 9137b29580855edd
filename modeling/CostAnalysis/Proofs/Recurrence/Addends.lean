import CostAnalysis.Proofs.Formula.Pieces
import CostAnalysis.Proofs.Recurrence.Notation
import CostAnalysis.Proofs.Text.Lowercase
import Mathlib.Algebra.Order.BigOperators.Group.List

/-!
# The addends of a recurrence

`Denotes T I right v` says what the right side of a recurrence is worth as a sum
of addends, with `T` a function of the size that nothing is known of: a
recursive term is its coefficient times `T` of the reduced size, any other
addend is the work that it spells, and the values of the addends add up.

**What is read is what is written.**  The terms of an accepted recurrence and
its work add up to its right side (`WrittenRecurrence.read_denotes`).  That
holds where nothing stands behind a recursive term in its addend and no factor
directly before it.  It does not hold for every text: a term is cut out wherever
it stands, and what was around it is read as if it belonged together
(`WrittenRecurrence.read_denotes_subtracted`).

Three facts carry the proof.

* Cutting out the terms of a sum cuts them out of each addend
  (`TermMatch.splits_pattern`).
* The reading of the rest is the sum of the readings of the addends
  (`Work.Reads.split`).
* An addend of which only the beginning is left cannot be read, since it ends
  with a sign (`Work.Reads.isNamePart_or_eq`).
-/

namespace CostAnalysis

open Text

/-! ## Results without a fault -/

/-- A result of two steps has a result of the first one behind it. -/
theorem exists_of_bind_eq_ok {ε α β : Type} {x : Except ε α} {f : α → Except ε β} {b : β}
    (h : x >>= f = .ok b) : ∃ a, x = .ok a ∧ f a = .ok b := by
  cases x with
  | error fault => cases h
  | ok a => exact ⟨a, rfl, h⟩

/-- A list is treated without a fault just if both of its parts are. -/
theorem exists_of_mapM_append {ε α β : Type} {f : α → Except ε β} {xs ys : List α} {found : List β}
    (h : (xs ++ ys).mapM f = .ok found) :
    ∃ a b, xs.mapM f = .ok a ∧ ys.mapM f = .ok b ∧ found = a ++ b := by
  rw [List.mapM_append] at h
  obtain ⟨a, ha, h⟩ := exists_of_bind_eq_ok h
  obtain ⟨b, hb, h⟩ := exists_of_bind_eq_ok h
  exact ⟨a, b, ha, hb, (Except.ok.inj h).symm⟩

/-! ## Addends of a text -/

/-- A text is one addend, or an addend in front of others. -/
theorem Formula.topLevelPieces_cases {depth : ℕ} {text : List Char}
    (h : depthAfter true depth text = some 0) :
    depthAfter false depth text = some 0 ∧ topLevelPieces depth text = [text] ∨
      ∃ front back, text = front ++ '+' :: back ∧ depthAfter false depth front = some 0 ∧
        Balanced back ∧ topLevelPieces depth text = front :: topLevelPieces 0 back := by
  induction text generalizing depth with
  | nil => exact Or.inl ⟨h, rfl⟩
  | cons c text ih =>
      by_cases hplus : c = '+' ∧ depth = 0
      · obtain ⟨rfl, rfl⟩ := hplus
        exact Or.inr ⟨[], text, rfl, rfl, h, rfl⟩
      · -- the character belongs to the first addend, and the depth goes on with it
        rw [depthAfter_cons] at h
        obtain ⟨d, hd, h⟩ := Option.bind_eq_some_iff.mp h
        have hstep : depthStep false depth c = some d := by
          unfold depthStep at hd ⊢
          grind
        have hpieces : ∀ {piece pieces}, topLevelPieces d text = piece :: pieces →
            topLevelPieces depth (c :: text) = (c :: piece) :: pieces := by
          intro piece pieces hnext
          rw [eq_add_nesting_of_depthStep hd] at hnext
          exact topLevelPieces_cons (by simpa using hplus) hnext
        rcases ih h with ⟨hdepth, hnext⟩ | ⟨front, back, rfl, hdepth, hback, hnext⟩
        · refine Or.inl ⟨?_, hpieces hnext⟩
          rw [depthAfter_cons, hstep]
          exact hdepth
        · refine Or.inr ⟨c :: front, back, rfl, ?_, hback, hpieces hnext⟩
          rw [depthAfter_cons, hstep]
          exact hdepth

/-! ## Terms

The value of a term is its coefficient times the value at the smaller size.
Merging adds the coefficients of equal sizes, as words, so that the sum of the
values is kept if no word overflows. -/

namespace RecursiveTerm

/-- The value of a term at the size `n`. -/
def value (T : ℚ → ℚ) (n : ℚ) (t : RecursiveTerm) : ℚ :=
  t.coefficient * T (match t.kind with
    | .division => n / t.amount
    | .subtraction => n - t.amount)

variable (T : ℚ → ℚ) (n : ℚ)

/-- Merging a term adds it, unless the coefficient of its size outgrows its
word. -/
theorem sum_merge {t : RecursiveTerm} {ts : List RecursiveTerm}
    (h : ∀ u ∈ ts, u.kind = t.kind → u.amount = t.amount →
      u.coefficient + t.coefficient < Numeric.twoTo 32) :
    ((merge t ts).map coefficient).sum = (ts.map coefficient).sum + t.coefficient ∧
      ((merge t ts).map (value T n)).sum = (ts.map (value T n)).sum + t.value T n := by
  induction ts with
  | nil => simp [merge]
  | cons u us ih =>
      obtain ⟨hfirst, hrest⟩ := List.forall_mem_cons.mp h
      obtain ⟨hcoefficients, hvalues⟩ := ih hrest
      rw [merge]
      split
      · next hsame =>
          -- the coefficients are added without leaving the word
          have hadd : addCoefficients u.coefficient t.coefficient =
              u.coefficient + t.coefficient := Nat.mod_eq_of_lt (hfirst hsame.1 hsame.2)
          obtain ⟨a, kind, amount⟩ := t
          obtain ⟨rfl, rfl⟩ := hsame
          simp only [List.map_cons, List.sum_cons, hadd, value]
          constructor
          · omega
          · push_cast
            ring
      · simp only [List.map_cons, List.sum_cons, hcoefficients, hvalues]
        exact ⟨by omega, by ring⟩

/-- Merging any number of terms keeps their sum, as long as the word holds all
the coefficients together: none of them exceeds this sum in the course of it. -/
theorem sum_foldl_merge {ts found : List RecursiveTerm}
    (h : (ts.map coefficient).sum + (found.map coefficient).sum < Numeric.twoTo 32) :
    ((found.foldl (fun ts t => merge t ts) ts).map (value T n)).sum =
      (ts.map (value T n)).sum + (found.map (value T n)).sum := by
  induction found generalizing ts with
  | nil => simp
  | cons t found ih =>
      rw [List.map_cons, List.sum_cons] at h
      have hfirst : ∀ u ∈ ts, u.kind = t.kind → u.amount = t.amount →
          u.coefficient + t.coefficient < Numeric.twoTo 32 := by
        intro u hu _ _
        have hle := List.le_sum_of_mem (List.mem_map_of_mem (f := coefficient) hu)
        omega
      obtain ⟨hcoefficients, hvalues⟩ := sum_merge T n hfirst
      rw [List.foldl_cons, ih (by omega), hvalues, List.map_cons, List.sum_cons, add_assoc]

end RecursiveTerm

/-! ## Work

What is left of a right side is nothing, an expression in the notation of
recurrences, or one of these inside of a bound such as `O(n)`.  `Work.Reads`
covers all of them, and a sum that is read in any of these ways is the sum of
its addends. -/

namespace Work

/-- The text is read as the formula: as an expression in the notation of
recurrences, or as one in an asymptotic bound.  The empty text is zero. -/
inductive Reads : List Char → Formula → Prop
  | nothing : Reads [] Formula.zero
  | expression {text : List Char} {e : Formula} (h : Formula.Spells .sum (explicit text) e) :
      Reads text e
  | bound {text inner : List Char} {e : Formula} (h : insideBound? text = some inner)
      (hinner : Reads inner e) : Reads text e

/-- A small letter may stand in a name. -/
theorem isNamePart_of_isSmallLetter {c : Char} (h : isSmallLetter c = true) :
    Formula.Reader.isNamePart c = true := by
  have hascii : isAscii c = true := by
    simp only [isSmallLetter, Bool.and_eq_true, decide_eq_true_eq] at h
    have hle : c.toNat ≤ 0x7a := h.2
    exact decide_eq_true (by omega)
  have hletter : isAsciiLetter c = true := Bool.or_eq_true_iff.mpr (Or.inl h)
  simp [Formula.Reader.isNamePart, isAlphanumeric, isAlphabetic, hascii, hletter]

/-- A bound is one of its openings, what stands inside, and a parenthesis. -/
theorem exists_of_insideBound? {text inner : List Char} (h : insideBound? text = some inner) :
    ∃ opening ∈ boundOpenings, text = opening ++ inner ++ [')'] := by
  obtain ⟨opening, hopening, h⟩ := List.exists_of_findSome?_eq_some h
  split at h
  · next rest hafter =>
      obtain ⟨hlast, h⟩ := Option.ite_none_right_eq_some.mp h
      cases h
      obtain ⟨inner, rfl⟩ := List.getLast?_eq_some_iff.mp (beq_iff_eq.mp hlast)
      refine ⟨opening, hopening, ?_⟩
      rw [Formula.Reader.eq_append_of_afterStart hafter, List.dropLast_concat, List.append_assoc]
  · cases h

variable {text front back : List Char} {e : Formula}

/-- A bound is closed at its end, and no plus sign stands outside of it. -/
theorem undivided_of_insideBound? {inner : List Char} (h : insideBound? text = some inner)
    (hinner : Balanced inner) : Undivided text := by
  obtain ⟨opening, hopening, rfl⟩ := exists_of_insideBound? h
  have hopen : ∀ opening ∈ boundOpenings, depthAfter false 0 opening = some 1 := by decide
  have hdeeper : depthAfter false 1 inner = some 1 := depthAfter_succ hinner
  rw [Undivided, depthAfter_append, depthAfter_append, hopen opening hopening, Option.bind_some,
    hdeeper]
  rfl

/-- What can be read has its parentheses in pairs. -/
theorem Reads.balanced (h : Reads text e) : Balanced text := by
  induction h with
  | nothing => rfl
  | expression h =>
      have hbalanced := h.balanced
      rwa [Text.Balanced, depthAfter_explicit] at hbalanced
  | bound h _ ih => exact (undivided_of_insideBound? h ih).balanced

/-- Work is read addend by addend. -/
theorem Reads.split (h : Reads (front ++ '+' :: back) e) (hfront : Balanced front) :
    ∃ a b, Reads front a ∧ Reads back b ∧ ∀ I, e.value I = a.value I + b.value I := by
  generalize htext : front ++ '+' :: back = text at h
  cases h with
  | nothing => simp at htext
  | expression h =>
      rw [← htext, explicit_append (by decide) (by decide) (Or.inl rfl)] at h
      have hexplicit : Balanced (explicit front) := by rwa [Text.Balanced, depthAfter_explicit]
      obtain ⟨a, b, ha, hb, hvalue⟩ := h.split hexplicit
      exact ⟨a, b, .expression ha, .expression hb, hvalue⟩
  | bound h hinner =>
      rw [← htext] at h
      exact absurd hfront (undivided_of_insideBound? h hinner.balanced).not_balanced

/-- The empty text is a work of zero. -/
theorem Reads.value_of_nil (h : Reads [] e) (I : Reading) : e.value I = 0 := by
  cases h with
  | nothing => rfl
  | expression h =>
      obtain ⟨c, hc, -⟩ := h.getLast?
      cases hc
  | bound h => cases h

/-- What is read does not end with a sign. -/
theorem Reads.isNamePart_or_eq {c : Char} (h : Reads (front ++ [c]) e) :
    Formula.Reader.isNamePart c = true ∨ c = ')' := by
  -- a text that can be read does not end with an open parenthesis
  have hopen : c ≠ '(' := by
    rintro rfl
    have hbalanced := h.balanced
    rw [Text.Balanced, depthAfter_append] at hbalanced
    obtain ⟨d, -, hd⟩ := Option.bind_eq_some_iff.mp hbalanced
    cases hd
  generalize htext : front ++ [c] = text at h
  cases h with
  | nothing => simp at htext
  | expression h =>
      cases hletter : isSmallLetter c with
      | true => exact Or.inl (isNamePart_of_isSmallLetter hletter)
      | false =>
          -- the last character stays the last one when the text is written out
          rw [← htext, explicit_append hletter hopen (Or.inr rfl)] at h
          obtain ⟨d, hd, hclass⟩ := h.getLast?
          rw [List.getLast?_append] at hd
          cases hd
          exact hclass
  | bound h hinner =>
      obtain ⟨opening, -, rfl⟩ := exists_of_insideBound? h
      exact Or.inr (List.append_inj_right' htext rfl |> List.singleton_inj.mp)

/-- The work is that of the formula.  A constant that stands alone, `c` or `k`,
counts as one. -/
def Of (w : Work) (e : Formula) : Prop :=
  ∃ text, w = ofFormula text e ∨ (e = .var "c" ∨ e = .var "k") ∧ w = ofFormula text Formula.one

end Work

/-! ## Right sides

What an addend denotes is said without a reader: a term, or a text that spells a
work.  Then the terms that are found in a text are those of its addends, and
what is left after cutting them out is the work of its addends with plus signs
between. -/

/-- The value of the right side of a recurrence.  Of plus signs in a row, one
counts. -/
inductive Denotes (T : ℚ → ℚ) (I : Reading) : List Char → ℚ → Prop
  | term {m : TermMatch} {source : String} {t : RecursiveTerm} (hformed : m.Formed)
      (ht : m.toTerm source = .ok t) : Denotes T I m.body (t.value T (I.var "n"))
  | work {text : List Char} {e : Formula}
      (h : Work.Reads (WrittenRecurrence.mergePluses text) e) : Denotes T I text (e.value I)
  | plus {text text' : List Char} {u v : ℚ} (hu : Denotes T I text u) (hv : Denotes T I text' v) :
      Denotes T I (text ++ '+' :: text') (u + v)

namespace WrittenRecurrence

/-- In what was found in an addend nothing comes after a term, and before it
there is neither a closing parenthesis nor the end of a name or a number. -/
def isDetached : List (Char ⊕ TermMatch) → Bool
  | [] => true
  | .inl _ :: found => isDetached found
  | .inr m :: found =>
    found.isEmpty && m.lead.all fun c => !(Formula.Reader.isNamePart c || c == ')')

/-- An addend whose term is detached is a work, or a term with a front that does
not belong to a factor. -/
theorem isDetached_cases {found : List (Char ⊕ TermMatch)} (h : isDetached found = true) :
    (∃ cs : List Char, found = cs.map .inl) ∨
      ∃ (cs : List Char) (m : TermMatch), found = cs.map .inl ++ [.inr m] ∧
        ∀ c ∈ m.lead, ¬(Formula.Reader.isNamePart c = true ∨ c = ')') := by
  induction found with
  | nil => exact Or.inl ⟨[], rfl⟩
  | cons piece found ih =>
      cases piece with
      | inl c =>
          rcases ih h with ⟨cs, rfl⟩ | ⟨cs, m, rfl, hlead⟩
          · exact Or.inl ⟨c :: cs, rfl⟩
          · exact Or.inr ⟨c :: cs, m, rfl, hlead⟩
      | inr m =>
          obtain ⟨hempty, hlead⟩ := Bool.and_eq_true_iff.mp h
          rw [List.isEmpty_iff] at hempty
          refine Or.inr ⟨[], m, by rw [hempty]; rfl, fun c hc => ?_⟩
          simpa using List.all_eq_true.mp hlead c hc

/-- One addend: it is a term, or there is none in it. -/
theorem denotes_addend {addend : List Char} {source : String}
    {found : List RecursiveTerm} {e : Formula}
    (hdetached : isDetached (scan TermMatch.pattern addend) = true)
    (hfound : (matchesIn TermMatch.pattern addend).mapM (TermMatch.toTerm source) = .ok found)
    (he : Work.Reads (mergePluses (replace TermMatch.pattern TermMatch.lead addend)) e) :
    (∀ m ∈ matchesIn TermMatch.pattern addend, m.body = addend) ∧ ∀ (T : ℚ → ℚ) (I : Reading),
      Denotes T I addend ((found.map (RecursiveTerm.value T (I.var "n"))).sum + e.value I) := by
  rcases isDetached_cases hdetached with ⟨cs, hscan⟩ | ⟨cs, m, hscan, hlead⟩
  · -- no term: the addend is left as it is
    obtain rfl : addend = cs := eq_of_scanFrom_eq_map hscan
    have hscan' : scan TermMatch.pattern addend =
        addend.map .inl ++ ([] : List TermMatch).map .inr := by
      rw [hscan, List.map_nil, List.append_nil]
    obtain ⟨hmatches, hleft⟩ := replace_of_scan_eq TermMatch.lead hscan'
    rw [hmatches] at hfound ⊢
    rw [hleft, List.flatMap_nil, List.append_nil] at he
    obtain rfl : [] = found := Except.ok.inj hfound
    refine ⟨fun m hm => (List.not_mem_nil hm).elim, fun T I => ?_⟩
    rw [List.map_nil, List.sum_nil, zero_add]
    exact .work he
  · have hscan' : scan TermMatch.pattern addend = cs.map .inl ++ [m].map .inr := hscan
    obtain ⟨hmatches, hleft⟩ := replace_of_scan_eq TermMatch.lead hscan'
    obtain ⟨before, taken, haddend, hmatch, ⟨rfl, hformed⟩, hstart⟩ :=
      exists_of_scanFrom_eq TermMatch.takes_pattern hscan
    rw [hmatches] at hfound ⊢
    rw [hleft, List.flatMap_singleton] at he
    rcases TermMatch.lead_of_pattern hmatch with ⟨hnone, hnil⟩ | ⟨c, hc⟩
    · -- a term without a separator is all of the addend
      obtain rfl := (hstart hnone).1
      rw [hnil, List.nil_append, List.nil_append] at haddend
      rw [hnil] at he
      subst haddend
      obtain ⟨t, ht, rfl⟩ : ∃ t, m.toTerm source = .ok t ∧ found = [t] := by
        rw [List.mapM_cons] at hfound
        obtain ⟨t, ht, hfound⟩ := exists_of_bind_eq_ok hfound
        exact ⟨t, ht, (Except.ok.inj hfound).symm⟩
      refine ⟨fun m' hm' => by rw [List.mem_singleton.mp hm'], fun T I => ?_⟩
      rw [List.map_singleton, List.sum_singleton, Work.Reads.value_of_nil he, add_zero]
      exact .term hformed ht
    · -- what is left ends with the separator, and cannot be read
      have hlast : (mergePluses (cs ++ m.lead)).getLast? = some c := by
        rw [getLast?_mergePluses, hc, List.getLast?_concat]
      obtain ⟨front, hfront⟩ := List.getLast?_eq_some_iff.mp hlast
      rw [hfront] at he
      exact absurd he.isNamePart_or_eq (hlead c (by rw [hc]; exact List.mem_singleton_self c))

/-- What is left of a sum is read as what is left of its first addend and what
is left of the others. -/
theorem reads_tidy_append {front back : List Char} {e : Formula} (hfront : Undivided front)
    (h : Work.Reads (tidy (front ++ '+' :: back)) e) :
    ∃ a b, Work.Reads (mergePluses front) a ∧ Work.Reads (tidy back) b ∧
      ∀ I, e.value I = a.value I + b.value I := by
  by_cases hne : front = []
  · subst hne
    rw [List.nil_append, tidy_plus] at h
    exact ⟨_, e, .nothing, h, fun I => (zero_add _).symm⟩
  · rw [tidy_append (bare_of_undivided hfront) hne] at h
    split at h
    · next hback =>
        rw [hback]
        exact ⟨e, _, h, .nothing, fun I => (add_zero _).symm⟩
    · refine h.split ?_
      rw [← tidy_of_bare (bare_of_undivided hfront), Text.Balanced, depthAfter_tidy]
      exact hfront.balanced

/-- Cutting out terms keeps the nesting. -/
theorem depthAfter_replace_pattern (plus : Bool) (depth : ℕ) (text : List Char) :
    depthAfter plus depth (replace TermMatch.pattern TermMatch.lead text) =
      depthAfter plus depth text := by
  refine depthAfter_replace TermMatch.takes_pattern ?_
  rintro m taken ⟨rfl, hformed⟩ d
  rw [depthAfter_append]
  simp [hformed.undivided.depthAfter_eq]

/-- The terms of a sum are those of its first addend and those of the others. -/
theorem exists_of_mapM_matchesIn {source : String} {front back : List Char}
    {found : List RecursiveTerm}
    (h : (matchesIn TermMatch.pattern (front ++ '+' :: back)).mapM (TermMatch.toTerm source) =
      .ok found) :
    ∃ a b, (matchesIn TermMatch.pattern front).mapM (TermMatch.toTerm source) = .ok a ∧
      (matchesIn TermMatch.pattern back).mapM (TermMatch.toTerm source) = .ok b ∧
      found = a ++ b := by
  have hmap : ∀ ms : List TermMatch, ms.mapM (TermMatch.toTerm source) =
      (ms.map (TermMatch.toTerm source)).mapM id := by
    intro ms
    rw [List.mapM_map, Function.id_comp]
  have hjoins : ∀ m m' : TermMatch, m = { m' with lead := ['+'] } ∧ m'.lead = [] →
      m.toTerm source = m'.toTerm source := by
    rintro m m' ⟨rfl, -⟩
    rfl
  rw [hmap, (TermMatch.splits_pattern back).map_matchesIn_append hjoins] at h
  simp only [hmap]
  exact exists_of_mapM_append h

/-- All addends: the induction is over the length of the text. -/
theorem denotes_addends {source : String} {right : List Char}
    (hright : Balanced right)
    (hdetached : ∀ addend ∈ Formula.topLevelPieces 0 right,
      isDetached (scan TermMatch.pattern addend) = true)
    {found : List RecursiveTerm}
    (hfound : (matchesIn TermMatch.pattern right).mapM (TermMatch.toTerm source) = .ok found)
    {e : Formula}
    (he : Work.Reads (tidy (replace TermMatch.pattern TermMatch.lead right)) e) :
    (∀ addend ∈ Formula.topLevelPieces 0 right,
      ∀ m ∈ matchesIn TermMatch.pattern addend, m.body = addend) ∧ ∀ (T : ℚ → ℚ) (I : Reading),
      Denotes T I right ((found.map (RecursiveTerm.value T (I.var "n"))).sum + e.value I) := by
  have hleft : ∀ {addend : List Char}, Undivided addend →
      Undivided (replace TermMatch.pattern TermMatch.lead addend) := by
    intro addend haddend
    rwa [Undivided, depthAfter_replace_pattern]
  induction hlength : right.length using Nat.strong_induction_on generalizing right found e with
  | _ length ih =>
      have hcases := Formula.topLevelPieces_cases hright
      rw [Nat.cast_zero] at hcases
      rcases hcases with ⟨haddend, hone⟩ | ⟨front, back, rfl, hfront, hback, hmore⟩
      -- a single addend
      · rw [hone] at hdetached ⊢
        rw [tidy_of_bare (bare_of_undivided (hleft haddend))] at he
        obtain ⟨hterms, hvalue⟩ := denotes_addend (hdetached right List.mem_cons_self) hfound he
        exact ⟨List.forall_mem_singleton.mpr hterms, hvalue⟩
      -- the first addend and the others: terms, work and values are divided at
      -- the plus sign
      · rw [hmore] at hdetached ⊢
        obtain ⟨hfirst, hothers⟩ := List.forall_mem_cons.mp hdetached
        obtain ⟨ts, us, hts, hus, rfl⟩ := exists_of_mapM_matchesIn hfound
        rw [(TermMatch.splits_pattern back).replace_append
          (by rintro m m' ⟨rfl, hlead⟩; rw [hlead])] at he
        obtain ⟨a, b, ha, hb, hsum⟩ := reads_tidy_append (hleft hfront) he
        obtain ⟨hterms, hvalue⟩ := denotes_addend hfirst hts ha
        have hshorter : back.length < length := by
          rw [← hlength, List.length_append, List.length_cons]
          omega
        obtain ⟨hterms', hvalue'⟩ := ih _ hshorter hback hothers hus hb rfl
        refine ⟨List.forall_mem_cons.mpr ⟨hterms, hterms'⟩, fun T I => ?_⟩
        convert Denotes.plus (hvalue T I) (hvalue' T I) using 1
        rw [List.map_append, List.sum_append, hsum]
        ring

/-! ## Characters of a right side

What is cut out and read is a text in its compact form, in small letters and
without blanks.  That has to be known of the rest, too, since its addends are
read once more. -/

/-- A character that a text in its compact form is made of. -/
def IsPlain (c : Char) : Prop :=
  IsSmall c ∧ isBlank c = false ∧ c ≠ '·' ∧ c ≠ '×'

/-- Signs that are written differently become plain ones. -/
theorem isPlain_plainSign {c : Char} (hsmall : IsSmall c) (hignored : isIgnored c = false) :
    IsPlain (plainSign c) := by
  rw [plainSign]
  split
  · exact ⟨⟨by decide, by decide⟩, by decide, by decide, by decide⟩
  · next htimes =>
      split
      · exact ⟨⟨by decide, by decide⟩, by decide, by decide, by decide⟩
      · simp only [isIgnored, Bool.or_eq_false_iff] at hignored
        simp only [Bool.or_eq_true, beq_iff_eq, not_or] at htimes
        exact ⟨hsmall, hignored.1.1.1.1, htimes.1, htimes.2⟩

/-- A size that was rounded is part of the text. -/
theorem mem_of_mem_roundedSize {before : Option Char} {text size : List Char} {length : ℕ}
    (h : roundedSize before text = some (size, length)) : ∀ c ∈ size, c ∈ text := by
  obtain ⟨opening, -, h⟩ := List.exists_of_findSome?_eq_some h
  split at h
  · next inner hafter =>
      split at h
      · next tail hsize =>
          cases h
          intro c hc
          rw [Formula.Reader.eq_append_of_afterStart hafter]
          exact List.mem_append_right _ (List.mem_of_mem_take hc)
      · cases h
  · cases h

/-- What stands behind the first sign is part of the text. -/
theorem mem_of_splitFirst {c : Char} {text front back : List Char}
    (h : splitFirst c text = some (front, back)) : ∀ d ∈ back, d ∈ text := by
  induction text generalizing front with
  | nil => cases h
  | cons e text ih =>
      rw [splitFirst] at h
      split at h
      · cases h
        exact fun d hd => List.mem_cons_of_mem _ hd
      · obtain ⟨⟨front', back'⟩, hsplit, heq⟩ := Option.map_eq_some_iff.mp h
        cases heq
        exact fun d hd => List.mem_cons_of_mem _ (ih hsplit d hd)

/-- A right side is made of plain characters, whatever the text was. -/
theorem isPlain_of_mem_rightSide {text : List Char} : ∀ c ∈ rightSide text, IsPlain c := by
  have hplain : ∀ c ∈ ((lowercase text).filter fun c => !isIgnored c).map plainSign, IsPlain c := by
    intro c hc
    obtain ⟨d, hd, rfl⟩ := List.mem_map.mp hc
    obtain ⟨hd, hignored⟩ := List.mem_filter.mp hd
    exact isPlain_plainSign (isSmall_of_mem_lowercaseAfter hd) (by simpa using hignored)
  refine forall_mem_replace ?_ ?_
  · intro before text size length hmatch htext c hc
    exact htext c (mem_of_mem_roundedSize hmatch c hc)
  · split
    · next front back hsplit => exact fun c hc => hplain c (mem_of_splitFirst hsplit c hc)
    · exact hplain

/-- Of a text of plain characters and blanks the compact form leaves the blanks
out. -/
theorem compactForm_eq_filter {text : List Char} (h : ∀ c ∈ text, c = ' ' ∨ IsPlain c) :
    Work.compactForm text = text.filter fun c => !isBlank c := by
  have hsmall : ∀ c ∈ text, IsSmall c := by
    intro c hc
    rcases h c hc with rfl | hplain
    · exact ⟨by decide, by decide⟩
    · exact hplain.1
  rw [Work.compactForm, lowercase_of_isSmall hsmall]
  refine (List.map_congr_left fun c hc => ?_).trans (List.map_id _)
  obtain ⟨hc, hblank⟩ := List.mem_filter.mp hc
  rcases h c hc with rfl | hplain
  · cases hblank
  · rw [if_neg (by simpa using hplain.2.2)]
    rfl

/-- A text of plain characters is in its compact form already. -/
theorem compactForm_of_isPlain {text : List Char} (h : ∀ c ∈ text, IsPlain c) :
    Work.compactForm text = text := by
  rw [compactForm_eq_filter fun c hc => .inr (h c hc)]
  exact List.filter_eq_self.mpr fun c hc => by simp [(h c hc).2.1]

/-- Merging adds no characters. -/
theorem mem_of_mem_mergePluses {text : List Char} : ∀ c ∈ mergePluses text, c ∈ text := by
  induction text with
  | nil => exact fun c hc => hc
  | cons d text ih =>
      intro c hc
      rw [mergePluses_cons] at hc
      split at hc
      · exact List.mem_cons_of_mem _ (ih c hc)
      · rcases List.mem_cons.mp hc with rfl | hc
        · exact List.mem_cons_self
        · exact List.mem_cons_of_mem _ (ih c hc)

/-- What is left of a plain right side is plain. -/
theorem isPlain_of_mem_remainder {right : List Char} (h : ∀ c ∈ right, IsPlain c) :
    ∀ c ∈ remainder right, IsPlain c := by
  have hleft : ∀ c ∈ replace TermMatch.pattern TermMatch.lead right, IsPlain c := by
    refine forall_mem_replace ?_ h
    intro before text m length hmatch htext c hc
    obtain ⟨taken, more, rfl, -, -, rfl, -⟩ := TermMatch.takes_pattern _ _ _ _ hmatch
    exact htext c (by simp [hc])
  intro c hc
  refine hleft c (mem_of_mem_mergePluses c ?_)
  rw [remainder, trimWhile, dropRightWhile, List.mem_reverse] at hc
  exact (List.dropWhile_suffix _).mem (List.mem_reverse.mp ((List.dropWhile_suffix _).mem hc))

/-! ## Work that is known -/

/-- Removing bounds adds no characters. -/
theorem mem_of_mem_stripBounds {fuel : ℕ} {text : List Char} :
    ∀ c ∈ Work.stripBounds fuel text, c ∈ text := by
  induction fuel generalizing text with
  | zero => exact fun c hc => hc
  | succ fuel ih =>
      intro c hc
      rw [Work.stripBounds] at hc
      split at hc
      · next inner hinner =>
          obtain ⟨opening, -, rfl⟩ := Work.exists_of_insideBound? hinner
          simp [ih c hc]
      · exact hc

/-- What is read inside bounds is read with them, however many were removed.
The induction is on the fuel, and each round is one bound. -/
theorem reads_of_stripBounds {fuel : ℕ} {text : List Char} {e : Formula}
    (h : Work.Reads (Work.stripBounds fuel text) e) : Work.Reads text e := by
  induction fuel generalizing text with
  | zero => exact h
  | succ fuel ih =>
      rw [Work.stripBounds] at h
      split at h
      · next inner hinner => exact .bound hinner (ih h)
      · exact h

/-- Work that is known was read as a formula. -/
theorem reads_of_known {rest : List Char} (hrest : ∀ c ∈ rest, IsPlain c)
    (hknown : (Work.read (String.ofList rest)).known = true) :
    ∃ e, (Work.read (String.ofList rest)).Of e ∧ Work.Reads rest e := by
  generalize hwork : Work.read (String.ofList rest) = w at hknown ⊢
  rw [Work.read, String.toList_ofList, compactForm_of_isPlain hrest] at hwork
  generalize hinner : Work.stripBounds rest.length rest = inner at hwork
  -- bounds are put back at the end
  suffices hreads : ∃ e, w.Of e ∧ Work.Reads inner e by
    obtain ⟨e, hof, hreads⟩ := hreads
    exact ⟨e, hof, reads_of_stripBounds (hinner ▸ hreads)⟩
  -- writing out brings no blanks in
  have hcompact : Formula.Reader.Compact (Work.explicit inner) := by
    have hadded : ∀ c ∈ ['l', 'o', 'g', '(', ')', '*'], (!Formula.Reader.isSpace c) = true :=
      List.all_eq_true.mp (by decide)
    refine Work.forall_mem_explicit (fun c hc => by simpa using hadded c hc) fun c hc => ?_
    rw [← hinner] at hc
    have hblank := (hrest c (mem_of_mem_stripBounds c hc)).2.1
    cases hspace : Formula.Reader.isSpace c with
    | false => rfl
    | true => exact absurd (Formula.isBlank_of_isSpace hspace) (by simp [hblank])
  have hname : ∀ {text : String}, (String.ofList inner == text) = true → inner = text.toList := by
    intro text htext
    rw [← beq_iff_eq.mp htext, String.toList_ofList]
  simp only at hwork
  split at hwork
  -- the empty text and the number zero are a work of zero
  · next hzero =>
      refine ⟨Formula.zero, ⟨"", Or.inl hwork.symm⟩, ?_⟩
      rcases Bool.or_eq_true_iff.mp hzero with hzero | hzero
      · rw [hname hzero]
        exact .nothing
      · rw [hname hzero]
        have hdigit : Text.isAsciiDigit '0' = true ∨ '0' = '.' := Or.inl rfl
        exact .expression (.addend (.factor (.base
          (.number (by decide) (List.forall_mem_singleton.mpr hdigit) rfl))))
  · split at hwork
    · next e hread =>
        split at hread
        · next hconstant =>
            -- a constant that stands alone counts as one, and is read as its
            -- name
            obtain rfl : Formula.one = e := Option.some.inj hread
            have hspells : ∀ {name : List Char}, inner = name → Formula.IsName name →
                Work.explicit name = name → Work.Reads inner (.var (String.ofList name)) := by
              rintro name rfl hname hexplicit
              refine .expression ?_
              rw [hexplicit]
              exact .addend (.factor (.base (.name hname)))
            rcases Bool.or_eq_true_iff.mp hconstant with hconstant | hconstant
            · exact ⟨.var "c", ⟨_, Or.inr ⟨Or.inl rfl, hwork.symm⟩⟩,
                hspells (hname hconstant) ⟨'c', [], rfl, by decide, rfl⟩ rfl⟩
            · exact ⟨.var "k", ⟨_, Or.inr ⟨Or.inr rfl, hwork.symm⟩⟩,
                hspells (hname hconstant) ⟨'k', [], rfl, by decide, rfl⟩ rfl⟩
        · exact ⟨e, ⟨_, Or.inl hwork.symm⟩, .expression (Formula.spells_of_ofChars? hcompact hread)⟩
    · subst hwork
      cases hknown

/-! ## Recurrences that are read -/

/-- The recursive terms as they are written, before equal ones are merged. -/
def writtenTerms (text : String) : Except RecurrenceFault (List RecursiveTerm) :=
  (matchesIn TermMatch.pattern (rightSide text.toList)).mapM (TermMatch.toTerm text)

/-- A recurrence that is read has the merged terms that are written, and the
work that is left. -/
theorem of_read {text : String} {w : WrittenRecurrence} (h : read text = .ok w) :
    ∃ found, writtenTerms text = .ok found ∧
      w.terms = found.foldl (fun terms t => RecursiveTerm.merge t terms) [] ∧
      w.work = Work.read (String.ofList (remainder (rightSide text.toList))) := by
  obtain ⟨found, hfound, h⟩ := exists_of_bind_eq_ok h
  refine ⟨found, hfound, ?_⟩
  simp only at h
  split at h
  · cases h
  · split at h
    · cases h
    · split at h
      · cases h
      · have hw := Except.ok.inj h
        subst hw
        simp only [and_self]

/-- **What is read is what is written**: the terms and the work of a recurrence
add up to its right side, and each term is an addend of its own.  Nothing may
follow a term in its addend, no factor may stand directly before one, and the
coefficients together must fit a word. -/
theorem read_denotes {text : String} {w : WrittenRecurrence} (h : read text = .ok w)
    (hknown : w.work.known = true)
    (hdetached : ∀ addend ∈ Formula.topLevelPieces 0 (rightSide text.toList),
      isDetached (scan TermMatch.pattern addend) = true)
    (hfits : ∀ found, writtenTerms text = .ok found →
      (found.map RecursiveTerm.coefficient).sum < Numeric.twoTo 32) :
    (∀ addend ∈ Formula.topLevelPieces 0 (rightSide text.toList),
      ∀ m ∈ matchesIn TermMatch.pattern addend, m.body = addend) ∧
      ∃ e, w.work.Of e ∧ ∀ (T : ℚ → ℚ) (I : Reading),
        Denotes T I (rightSide text.toList)
          ((w.terms.map (RecursiveTerm.value T (I.var "n"))).sum + e.value I) := by
  obtain ⟨found, hfound, hterms, hwork⟩ := of_read h
  rw [hwork] at hknown
  obtain ⟨e, hof, hreads⟩ :=
    reads_of_known (isPlain_of_mem_remainder isPlain_of_mem_rightSide) hknown
  have hbalanced : Balanced (rightSide text.toList) := by
    have hremainder := hreads.balanced
    rwa [remainder_eq_tidy, Text.Balanced, depthAfter_tidy,
      depthAfter_replace_pattern] at hremainder
  obtain ⟨haddends, hvalue⟩ := denotes_addends hbalanced hdetached hfound hreads
  refine ⟨haddends, e, by rwa [hwork], fun T I => ?_⟩
  rw [hterms, RecursiveTerm.sum_foldl_merge T (I.var "n") (by simpa using hfits found hfound)]
  simpa using hvalue T I

/-- A result that is there is a result without a fault. -/
theorem eq_ok_of_toOption {ε α : Type} {x : Except ε α} {a : α} (h : x.toOption = some a) :
    x = .ok a := by
  cases x with
  | error fault => cases h
  | ok b => rw [Option.some.inj h]

/-- Two terms and a work with a product that is not written: what is read is
worth what the right side is, for all `T` at once. -/
theorem read_denotes_twoDivisions :
    ∃ w e, read "T(n) = 2T(n/2) + T(n/4) + 3n log n" = .ok w ∧ w.work.Of e ∧
      ∀ (T : ℚ → ℚ) (I : Reading), Denotes T I "2t(n/2)+t(n/4)+3nlogn".toList
        (2 * T (I.var "n" / 2) + T (I.var "n" / 4) + e.value I) := by
  have hread : ((read "T(n) = 2T(n/2) + T(n/4) + 3n log n").toOption.map fun w =>
      (w.terms, w.work.known)) = some ([⟨2, .division, 2⟩, ⟨1, .division, 4⟩], true) := by
    decide +kernel
  have hright : rightSide "T(n) = 2T(n/2) + T(n/4) + 3n log n".toList =
      "2t(n/2)+t(n/4)+3nlogn".toList := by
    decide +kernel
  obtain ⟨w, hw, hparts⟩ := Option.map_eq_some_iff.mp hread
  obtain ⟨hterms, hknown⟩ := Prod.mk.inj hparts
  -- the coefficients that are written are small
  have hfits : ∀ found, writtenTerms "T(n) = 2T(n/2) + T(n/4) + 3n log n" = .ok found →
      (found.map RecursiveTerm.coefficient).sum < Numeric.twoTo 32 := by
    have hall : (writtenTerms "T(n) = 2T(n/2) + T(n/4) + 3n log n").toOption.all (fun found =>
        (found.map RecursiveTerm.coefficient).sum < Numeric.twoTo 32) = true := by
      decide +kernel
    intro found hfound
    rw [hfound] at hall
    exact of_decide_eq_true hall
  obtain ⟨-, e, hof, hdenotes⟩ := read_denotes (eq_ok_of_toOption hw) hknown
    (by rw [hright]; decide +kernel) hfits
  refine ⟨w, e, eq_ok_of_toOption hw, hof, fun T I => ?_⟩
  have hvalue := hdenotes T I
  rw [hright, hterms] at hvalue
  simpa [RecursiveTerm.value] using hvalue

/-- A term that is subtracted in front of more work: the text is no sum of terms
and work, and it is read as `T(n/2) + (n + 1)`. -/
theorem read_denotes_subtracted :
    ∃ w, read "T(n) = n - T(n/2) - 1" = .ok w ∧ w.work.known = true ∧
      w.terms = [⟨1, .division, 2⟩] ∧
      w.work.formula? = some ((Formula.var "n").add Formula.one) ∧
      ∃ addend ∈ Formula.topLevelPieces 0 (rightSide "T(n) = n - T(n/2) - 1".toList),
        ∃ m ∈ matchesIn TermMatch.pattern addend, m.lead = ['-'] ∧ m.body ≠ addend := by
  have hread : ((read "T(n) = n - T(n/2) - 1").toOption.map fun w =>
      (w.work.known, w.terms, w.work.formula?.any ((Formula.var "n").add Formula.one).beq)) =
      some (true, [⟨1, .division, 2⟩], true) := by
    decide +kernel
  obtain ⟨w, hw, hparts⟩ := Option.map_eq_some_iff.mp hread
  obtain ⟨hknown, hparts⟩ := Prod.mk.inj hparts
  obtain ⟨hterms, hformula⟩ := Prod.mk.inj hparts
  obtain ⟨e, he, hbeq⟩ := (Option.any_eq_true _ _).mp hformula
  refine ⟨w, eq_ok_of_toOption hw, hknown, hterms, by rw [he, Formula.eq_of_beq _ _ hbeq], ?_⟩
  have hterm : ((Formula.topLevelPieces 0 (rightSide "T(n) = n - T(n/2) - 1".toList)).any
      fun addend => (matchesIn TermMatch.pattern addend).any fun m =>
        m.lead == ['-'] && m.body != addend) = true := by
    decide +kernel
  obtain ⟨addend, haddend, hm⟩ := List.any_eq_true.mp hterm
  obtain ⟨m, hm, hsubtracted⟩ := List.any_eq_true.mp hm
  exact ⟨addend, haddend, m, hm, by simpa using hsubtracted⟩

end WrittenRecurrence

end CostAnalysis
