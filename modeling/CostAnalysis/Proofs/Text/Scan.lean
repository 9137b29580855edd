import CostAnalysis.Text.Scan
import Mathlib.Data.Int.Notation
import Mathlib.Data.List.Basic
import Mathlib.Data.List.Chain

/-!
# Parts of a text

What is known of a text that has been searched for a pattern, and rewritten,
from what is known of its parts.

**Nesting.**  `depthAfter` counts the parentheses that are open after a text.  A
text is `Balanced` if each of its parentheses has its partner, and `Undivided`
if moreover no plus sign stands outside of them.  Replacing matches by texts of
the same nesting keeps both (`depthAfter_replace`).

**Signs that no match crosses.**  Where a pattern `Splits` at a sign, the text
before it and the text behind it can be searched one by one.  A match may begin
with the sign, and is then one that begins right behind it in the second part.

**Three questions about a scan.**  What a replaced text is made of, what a scan
tells about the text that was searched, and when a text may be searched piece by
piece.  They are answered for any pattern, given what it takes (`Pattern.Takes`)
and that no match of it crosses a sign (`Splits`).
-/

namespace CostAnalysis.Text

variable {α β : Type}

/-- What holds of all characters of a text is decided along the text, not for
each character that there is. -/
instance (priority := high) decidableForallMem (p : Char → Prop) [DecidablePred p]
    (text : List Char) : Decidable (∀ c ∈ text, p c) :=
  List.decidableBAll p text

/-! ## Nesting

A text is followed with the number of parentheses that are open.  With `plus` it
also has to have no plus sign where none is open, so that one function serves
for both questions. -/

/-- The number of open parentheses after one more character.  There is none if a
parenthesis is closed that was not open, nor, unless `plus` is set, after a plus
sign outside of parentheses. -/
def depthStep (plus : Bool) (depth : ℕ) (c : Char) : Option ℕ :=
  if c = '(' then some (depth + 1)
  else if depth = 0 ∧ (c = ')' ∨ c = '+' ∧ plus = false) then none
  else if c = ')' then some (depth - 1)
  else some depth

/-- The number of open parentheses after a text. -/
def depthAfter (plus : Bool) (depth : ℕ) (text : List Char) : Option ℕ :=
  text.foldlM (depthStep plus) depth

/-- Each parenthesis has its partner. -/
def Balanced (text : List Char) : Prop :=
  depthAfter true 0 text = some 0

/-- Each parenthesis has its partner, and no plus sign stands outside of
them. -/
def Undivided (text : List Char) : Prop :=
  depthAfter false 0 text = some 0

variable {plus : Bool} {depth depth' : ℕ} {text rest : List Char}

/-- The empty text changes nothing. -/
@[simp] theorem depthAfter_nil : depthAfter plus depth [] = some depth := rfl

/-- The first character comes first. -/
@[simp] theorem depthAfter_cons {c : Char} : depthAfter plus depth (c :: text) =
    (depthStep plus depth c).bind fun d => depthAfter plus d text := rfl

theorem depthAfter_append : depthAfter plus depth (text ++ rest) =
    (depthAfter plus depth text).bind fun d => depthAfter plus d rest :=
  List.foldlM_append

/-- A parenthesis opens one more level. -/
@[simp] theorem depthStep_open : depthStep plus depth '(' = some (depth + 1) := rfl

@[simp] theorem depthStep_close : depthStep plus (depth + 1) ')' = some depth := rfl

/-- Where plus signs are allowed they do not matter. -/
@[simp] theorem depthStep_plus : depthStep true depth '+' = some depth := by
  simp [depthStep]

/-- The characters that do not matter for the nesting. -/
def isLevel (c : Char) : Bool :=
  c != '(' && c != ')' && c != '+'

theorem depthStep_of_isLevel {c : Char} (h : isLevel c = true) :
    depthStep plus depth c = some depth := by
  simp only [isLevel, Bool.and_eq_true, bne_iff_ne] at h
  have hends : ¬(depth = 0 ∧ (c = ')' ∨ c = '+' ∧ plus = false)) := by
    rintro ⟨-, hc | hc⟩
    · exact h.1.2 hc
    · exact h.2 hc.1
  rw [depthStep, if_neg h.1.1, if_neg hends, if_neg h.1.2]

theorem depthAfter_of_isLevel (h : ∀ c ∈ text, isLevel c = true) :
    depthAfter plus depth text = some depth := by
  induction text with
  | nil => rfl
  | cons c text ih =>
      rw [depthAfter_cons, depthStep_of_isLevel (h c List.mem_cons_self)]
      exact ih fun d hd => h d (List.mem_cons_of_mem _ hd)

/-- What may stand outside of parentheses may stand inside of others. -/
theorem depthAfter_succ (h : depthAfter true depth text = some depth') :
    depthAfter plus (depth + 1) text = some (depth' + 1) := by
  induction text generalizing depth with
  | nil =>
      cases h
      rfl
  | cons c text ih =>
      obtain ⟨d, hd, h⟩ := Option.bind_eq_some_iff.mp h
      have hstep : depthStep plus (depth + 1) c = some (d + 1) := by
        unfold depthStep at hd ⊢
        grind
      rw [depthAfter_cons, hstep]
      exact ih h

/-- What is right without plus signs is right with them. -/
theorem depthAfter_of_false (h : depthAfter false depth text = some depth') :
    depthAfter true depth text = some depth' := by
  induction text generalizing depth with
  | nil => exact h
  | cons c text ih =>
      obtain ⟨d, hd, h⟩ := Option.bind_eq_some_iff.mp h
      have hstep : depthStep true depth c = some d := by
        unfold depthStep at hd ⊢
        grind
      rw [depthAfter_cons, hstep]
      exact ih h

/-- So a text without plus signs outside has its parentheses in pairs. -/
theorem Undivided.balanced (h : Undivided text) : Balanced text :=
  depthAfter_of_false h

/-- A balanced text in parentheses is not divided. -/
theorem Balanced.undivided (h : Balanced text) : Undivided ('(' :: text ++ [')']) := by
  have hinner : depthAfter false 1 text = some 1 := depthAfter_succ h
  rw [Undivided, List.cons_append, depthAfter_cons, depthStep_open, Option.bind_some,
    depthAfter_append, hinner]
  rfl

/-- Two such texts together are one. -/
theorem Undivided.append (h : Undivided text) (hrest : Undivided rest) :
    Undivided (text ++ rest) := by
  rw [Undivided, depthAfter_append, h]
  exact hrest

/-- An undivided text leaves every depth as it is. -/
theorem Undivided.depthAfter_eq (h : Undivided text) (plus : Bool) (depth : ℕ) :
    depthAfter plus depth text = some depth := by
  have hbalanced : ∀ depth, depthAfter true depth text = some depth := by
    intro depth
    induction depth with
    | zero => exact h.balanced
    | succ depth ih => exact depthAfter_succ ih
  cases depth with
  | zero =>
      cases plus with
      | false => exact h
      | true => exact h.balanced
  | succ depth => exact depthAfter_succ (hbalanced depth)

theorem undivided_of_isLevel (h : ∀ c ∈ text, isLevel c = true) : Undivided text :=
  depthAfter_of_isLevel h

theorem Undivided.cons {c : Char} (hc : isLevel c = true) (h : Undivided text) :
    Undivided (c :: text) := by
  rw [Undivided, depthAfter_cons, depthStep_of_isLevel hc]
  exact h

/-- A sign that is no parenthesis keeps two texts apart. -/
theorem Balanced.append_cons_iff {c : Char} (h : Balanced text) (hopen : c ≠ '(')
    (hclose : c ≠ ')') : Balanced (text ++ c :: rest) ↔ Balanced rest := by
  have hstep : depthStep true 0 c = some 0 := by simp [depthStep, hopen, hclose]
  rw [Balanced, depthAfter_append, h, Option.bind_some, depthAfter_cons, hstep, Option.bind_some,
    Balanced]

/-- In an undivided text some parenthesis is open before each plus sign. -/
theorem Undivided.not_balanced (h : Undivided (text ++ '+' :: rest)) : ¬Balanced text := by
  intro hbalanced
  rw [Undivided, depthAfter_append] at h
  obtain ⟨d, hd, h⟩ := Option.bind_eq_some_iff.mp h
  obtain rfl : d = 0 := Option.some.inj ((depthAfter_of_false hd).symm.trans hbalanced)
  cases h

/-- How many more parentheses are opened in a text than closed. -/
def nesting (text : List Char) : ℤ :=
  text.count '(' - text.count ')'

@[simp] theorem nesting_nil : nesting [] = 0 := rfl

@[simp] theorem nesting_plus : nesting ['+'] = 0 := rfl

/-- Parentheses add up along a text. -/
theorem nesting_append (front back : List Char) :
    nesting (front ++ back) = nesting front + nesting back := by
  simp only [nesting, List.count_append]
  omega

theorem nesting_cons (c : Char) (text : List Char) :
    nesting (c :: text) = nesting [c] + nesting text :=
  nesting_append [c] text

/-- The depth goes on with a character that is allowed. -/
theorem eq_add_nesting_of_depthStep {c : Char} {d : ℕ} (h : depthStep plus depth c = some d) :
    (d : ℤ) = depth + nesting [c] := by
  unfold depthStep at h
  simp only [nesting, List.count_singleton, beq_iff_eq]
  grind

/-! ## Replacing matches

What is put together from a scan is what stood between the matches and what was
written for them.  Three things are said of it: how deeply it nests, which
characters it has, and which characters stand next to each other. -/

/-- Each match of the pattern takes some of the characters that follow, and
these are related to its value. -/
def Pattern.Takes (pattern : Pattern α) (related : α → List Char → Prop) : Prop :=
  ∀ before text value length, pattern before text = some (value, length) →
    ∃ taken more, text = taken ++ more ∧ length = taken.length ∧ taken ≠ [] ∧ related value taken

/-- The relation may be weakened. -/
theorem Pattern.Takes.mono {pattern : Pattern α} {related related' : α → List Char → Prop}
    (h : pattern.Takes related) (himp : ∀ value taken, related value taken → related' value taken) :
    pattern.Takes related' := by
  intro before text value length hmatch
  obtain ⟨taken, more, htext, hlength, hne, hrelated⟩ := h before text value length hmatch
  exact ⟨taken, more, htext, hlength, hne, himp value taken hrelated⟩

/-- The text that is put together from what a scan has found. -/
def rewritten (write : α → List Char) (found : List (Char ⊕ α)) : List Char :=
  found.flatMap fun piece =>
    match piece with
    | .inl c => [c]
    | .inr value => write value

/-- To replace is to put together what a scan has found, with each match written
out. -/
theorem replace_eq_rewritten (pattern : Pattern α) (write : α → List Char) (text : List Char) :
    replace pattern write text = rewritten write (scan pattern text) := rfl

variable {pattern : Pattern α} {related : α → List Char → Prop} {write : α → List Char}

/-- Matches that are replaced by texts of the same nesting keep it. -/
theorem depthAfter_replace (htakes : pattern.Takes related)
    (hwrite : ∀ value taken, related value taken →
      ∀ d, depthAfter plus d (write value) = depthAfter plus d taken) :
    depthAfter plus depth (replace pattern write text) = depthAfter plus depth text := by
  -- the characters that belong to a match already have been counted with it
  have hscan : ∀ (text : List Char) (before : Option Char) (skip d : ℕ),
      depthAfter plus d (rewritten write (scanFrom pattern before skip text)) =
        depthAfter plus d (text.drop skip) := by
    intro text
    induction text with
    | nil =>
        intro before skip d
        rw [List.drop_nil]
        rfl
    | cons c text ih =>
        intro before skip d
        cases skip with
        | succ k => exact ih (some c) k d
        | zero =>
            rw [scanFrom]
            split
            · next value length hmatch =>
                obtain ⟨taken, more, htext, rfl, hne, hrelated⟩ := htakes _ _ _ _ hmatch
                obtain ⟨c', taken, rfl⟩ := List.exists_cons_of_ne_nil hne
                rw [List.cons_append] at htext
                cases htext
                show depthAfter plus d (write value ++ rewritten write _) = _
                rw [depthAfter_append, hwrite _ _ hrelated]
                simp only [ih, List.length_cons, Nat.add_sub_cancel, List.drop_left]
                rw [← depthAfter_append, List.drop_zero, List.cons_append]
            · show depthAfter plus d (c :: rewritten write _) = _
              simp only [depthAfter_cons, ih, List.drop_zero]
  exact hscan text none 0 depth

/-- A property of all characters is one of all characters after replacing. -/
theorem forall_mem_replace {P : Char → Prop}
    (hwrite : ∀ before text value length, pattern before text = some (value, length) →
      (∀ c ∈ text, P c) → ∀ c ∈ write value, P c)
    (htext : ∀ c ∈ text, P c) : ∀ c ∈ replace pattern write text, P c := by
  -- every character is one of the text or was written for a match
  have hscan : ∀ (text : List Char), (∀ c ∈ text, P c) → ∀ (before : Option Char) (skip : ℕ),
      ∀ c ∈ rewritten write (scanFrom pattern before skip text), P c := by
    intro text
    induction text with
    | nil => exact fun _ _ _ c hc => by cases hc
    | cons d text ih =>
        intro htext before skip
        have hih := ih fun c hc => htext c (List.mem_cons_of_mem _ hc)
        cases skip with
        | succ k => exact hih (some d) k
        | zero =>
            rw [scanFrom]
            split
            · next value length hmatch =>
                intro c hc
                rcases List.mem_append.mp (show c ∈ write value ++ rewritten write _ from hc) with
                  hc | hc
                · exact hwrite _ _ _ _ hmatch htext c hc
                · exact hih _ _ c hc
            · intro c hc
              rcases List.mem_cons.mp (show c ∈ d :: rewritten write _ from hc) with rfl | hc
              · exact htext c List.mem_cons_self
              · exact hih _ _ c hc
  exact hscan text htext none 0

/-- A relation between neighbours is kept if each match is replaced by a text in
which it holds and which begins and ends with the same characters. -/
theorem isChain_replace {R : Char → Char → Prop} (htakes : pattern.Takes related)
    (hwrite : ∀ value taken, related value taken → taken.IsChain R → (write value).IsChain R ∧
      (write value).head? = taken.head? ∧ (write value).getLast? = taken.getLast?)
    (htext : text.IsChain R) : (replace pattern write text).IsChain R := by
  -- what is made of the rest of a text begins like the rest
  have hscan : ∀ (text : List Char), text.IsChain R → ∀ (before : Option Char) (skip : ℕ),
      (rewritten write (scanFrom pattern before skip text)).IsChain R ∧
        (rewritten write (scanFrom pattern before skip text)).head? = (text.drop skip).head? := by
    intro text
    induction text with
    | nil =>
        intro _ before skip
        rw [List.drop_nil]
        exact ⟨.nil, rfl⟩
    | cons c text ih =>
        intro htext before skip
        cases skip with
        | succ k => exact ih htext.tail (some c) k
        | zero =>
            rw [scanFrom]
            split
            · next value length hmatch =>
                obtain ⟨taken, more, hcut, rfl, hne, hrelated⟩ := htakes _ _ _ _ hmatch
                obtain ⟨hrest, hhead⟩ := ih htext.tail (some c) (taken.length - 1)
                have hdrop : text.drop (taken.length - 1) = more := by
                  obtain ⟨d, taken, rfl⟩ := List.exists_cons_of_ne_nil hne
                  rw [List.cons_append, List.cons.injEq] at hcut
                  rw [hcut.2, List.length_cons, Nat.add_sub_cancel, List.drop_left]
                rw [hdrop] at hhead
                rw [hcut, List.isChain_append] at htext
                obtain ⟨hchain, hfirst, hlast⟩ := hwrite _ _ hrelated htext.1
                show (write value ++ rewritten write _).IsChain R ∧
                  (write value ++ rewritten write _).head? = _
                constructor
                · refine List.isChain_append.mpr ⟨hchain, hrest, ?_⟩
                  rw [hlast, hhead]
                  exact htext.2.2
                · rw [hcut, List.drop_zero, List.head?_append, List.head?_append, hfirst, hhead]
            · obtain ⟨hrest, hhead⟩ := ih htext.tail (some c) 0
              rw [List.drop_zero] at hhead
              show (c :: rewritten write _).IsChain R ∧ (c :: rewritten write _).head? = _
              refine ⟨List.isChain_cons.mpr ⟨?_, hrest⟩, rfl⟩
              rw [hhead]
              exact (List.isChain_cons.mp htext).1
  exact (hscan text htext none 0).1

/-! ## What a scan tells about the text -/

/-- What is made of a text in which matches were found behind all other
characters. -/
theorem replace_of_scan_eq (write : α → List Char) {cs : List Char} {values : List α}
    (h : scan pattern text = cs.map .inl ++ values.map .inr) :
    matchesIn pattern text = values ∧ replace pattern write text = cs ++ values.flatMap write := by
  rw [matchesIn, replace, h]
  simp [List.flatMap_map]

/-- A text in which nothing was found. -/
theorem eq_of_scanFrom_eq_map {before : Option Char} {cs : List Char}
    (h : scanFrom pattern before 0 text = cs.map .inl) : text = cs := by
  induction text generalizing before cs with
  | nil =>
      cases cs with
      | nil => rfl
      | cons c cs => cases h
  | cons d text ih =>
      rw [scanFrom] at h
      cases cs with
      | nil => split at h <;> cases h
      | cons c cs =>
          split at h
          · cases h
          · obtain ⟨hc, h⟩ := List.cons.inj h
            rw [Sum.inl.inj hc, ih h]

/-- A scan finds nothing only where all characters are skipped. -/
theorem length_le_of_scanFrom_eq_nil {before : Option Char} {skip : ℕ}
    (h : scanFrom pattern before skip text = []) : text.length ≤ skip := by
  induction text generalizing before skip with
  | nil => exact Nat.zero_le _
  | cons c text ih =>
      cases skip with
      | succ k => exact Nat.succ_le_succ (ih h)
      | zero =>
          rw [scanFrom] at h
          split at h <;> cases h

/-- A text in which one match was found, at its end. -/
theorem exists_of_scanFrom_eq (htakes : pattern.Takes related) {before : Option Char}
    {cs : List Char} {value : α}
    (h : scanFrom pattern before 0 text = cs.map .inl ++ [.inr value]) :
    ∃ before' taken, text = cs ++ taken ∧ pattern before' taken = some (value, taken.length) ∧
      related value taken ∧ (before' = none → cs = [] ∧ before = none) := by
  induction text generalizing before cs with
  | nil => cases cs <;> cases h
  | cons d text ih =>
      rw [scanFrom] at h
      cases cs with
      | nil =>
          split at h
          · next value' length hmatch =>
              obtain ⟨hvalue, hmore⟩ := List.cons.inj h
              rw [Sum.inr.inj hvalue] at hmatch
              obtain ⟨taken, more, htext, rfl, hne, hrelated⟩ := htakes _ _ _ _ hmatch
              -- nothing is found behind the match, so it takes all that is left
              have hlength := length_le_of_scanFrom_eq_nil hmore
              obtain rfl : more = [] := by
                have htotal := congrArg List.length htext
                have hpos := List.length_pos_of_ne_nil hne
                rw [List.length_append, List.length_cons] at htotal
                exact List.eq_nil_of_length_eq_zero (by omega)
              rw [List.append_nil] at htext
              rw [htext] at hmatch ⊢
              exact ⟨before, taken, rfl, hmatch, hrelated, fun hnone => ⟨rfl, hnone⟩⟩
          · cases h
      | cons c cs =>
          split at h
          · cases h
          · obtain ⟨hc, h⟩ := List.cons.inj h
            obtain ⟨before', taken, rfl, hmatch, hrelated, hnone⟩ := ih h
            refine ⟨before', taken, ?_, hmatch, hrelated, fun hbefore => ?_⟩
            · rw [Sum.inl.inj hc, List.cons_append]
            · cases (hnone hbefore).2

/-! ## Texts without a match -/

/-- A part of a text in which no match begins is kept. -/
theorem scanFrom_append_of_none {front back : List Char}
    (h : ∀ before part, part <:+ front → part ≠ [] → pattern before (part ++ back) = none)
    (before : Option Char) :
    ∃ before', scanFrom pattern before 0 (front ++ back) =
      front.map .inl ++ scanFrom pattern before' 0 back := by
  induction front generalizing before with
  | nil => exact ⟨before, rfl⟩
  | cons c front ih =>
      have hnone := h before (c :: front) List.suffix_rfl (List.cons_ne_nil c front)
      obtain ⟨before', hback⟩ :=
        ih (fun before part hpart => h before part (hpart.trans (List.suffix_cons c front)))
          (some c)
      rw [List.cons_append] at hnone ⊢
      rw [scanFrom, hnone]
      exact ⟨before', by rw [hback, List.map_cons, List.cons_append]⟩

/-- Where no match begins in the first part of a text, the second part is
rewritten alone. -/
theorem replace_append_of_none {front back result : List Char}
    (h : ∀ before part, part <:+ front → part ≠ [] → pattern before (part ++ back) = none)
    (hback : ∀ before, rewritten write (scanFrom pattern before 0 back) = result) :
    replace pattern write (front ++ back) = front ++ result := by
  obtain ⟨before, hscan⟩ := scanFrom_append_of_none h none
  rw [replace_eq_rewritten, scan, hscan, ← hback before]
  simp [rewritten, List.flatMap_map]

/-- A pattern that matches nowhere leaves a text as it is. -/
theorem scan_of_none (h : ∀ before part, part <:+ text → part ≠ [] → pattern before part = none) :
    scan pattern text = text.map .inl := by
  have h' : ∀ before part, part <:+ text → part ≠ [] → pattern before (part ++ []) = none := by
    simpa using h
  obtain ⟨before, hscan⟩ := scanFrom_append_of_none h' none
  rwa [List.append_nil, scanFrom, List.append_nil] at hscan

/-- There is no match in a text that has none of the characters of which every
match has one. -/
theorem scan_of_absent {p : Char → Bool}
    (htakes : pattern.Takes fun _ taken => ∃ c ∈ taken, p c = true)
    (h : ∀ c ∈ text, p c = false) : scan pattern text = text.map .inl := by
  refine scan_of_none fun before part hpart _ => ?_
  refine Option.eq_none_iff_forall_ne_some.mpr fun ⟨value, length⟩ hmatch => ?_
  obtain ⟨taken, more, rfl, -, -, c, hc, hp⟩ := htakes _ _ _ _ hmatch
  have habsent := h c (hpart.subset (List.mem_append_left more hc))
  simp [hp] at habsent

/-- Nothing is found in it then, and nothing replaced. -/
theorem replace_of_scan_eq_map (h : scan pattern text = text.map .inl) :
    matchesIn pattern text = [] ∧ replace pattern write text = text := by
  have hscan : scan pattern text = text.map .inl ++ ([] : List α).map .inr := by simp [h]
  simpa using replace_of_scan_eq write hscan

/-- Nothing is replaced in a text whose neighbours are related, if in every
match some are not. -/
theorem replace_of_isChain {R : Char → Char → Prop}
    (htakes : pattern.Takes fun _ taken => ¬ taken.IsChain R) (htext : text.IsChain R) :
    replace pattern write text = text := by
  refine (replace_of_scan_eq_map (scan_of_none fun before part hpart _ => ?_)).2
  refine Option.eq_none_iff_forall_ne_some.mpr fun ⟨value, length⟩ hmatch => ?_
  obtain ⟨taken, more, rfl, -, -, htaken⟩ := htakes _ _ _ _ hmatch
  exact htaken (htext.suffix hpart).left_of_append

theorem occurs_of_scan_eq_map (h : scan pattern text = text.map .inl) :
    occurs pattern text = false := by
  simp [occurs, matchesIn, h]

/-- A match may be all of a text. -/
theorem replace_of_match {value : α} (h : pattern none text = some (value, text.length))
    (hne : text ≠ []) :
    matchesIn pattern text = [value] ∧ replace pattern write text = write value := by
  have hskip : ∀ (text : List Char) (before : Option Char),
      scanFrom pattern before text.length text = [] := by
    intro text
    induction text with
    | nil => exact fun _ => rfl
    | cons c text ih => exact fun before => ih (some c)
  have hscan : scan pattern text = ([] : List Char).map .inl ++ [value].map .inr := by
    obtain ⟨c, text, rfl⟩ := List.exists_cons_of_ne_nil hne
    rw [scan, scanFrom, h]
    exact congrArg _ (hskip text (some c))
  simpa using replace_of_scan_eq write hscan

/-! ## Signs that no match crosses

A search goes from left to right and never looks back, so putting texts together
changes what is found in the first of them only if a match runs over its end.
`Splits` excludes this for one sign between the two, and from then on searching
and replacing may be done piece by piece. -/

/-- No match of the pattern that begins in front of the sign goes on with the
sign or what follows, and one that begins with it is, apart from the sign, a
match at the start of what follows. -/
structure Splits (pattern : Pattern α) (sign : Char) (rest : List Char)
    (joins : α → α → Prop) : Prop where
  takes : pattern.Takes fun _ _ => True
  front : ∀ before text, text ≠ [] → pattern before (text ++ sign :: rest) = pattern before text
  back : ∀ before,
    pattern before (sign :: rest) = none ∧ pattern (some sign) rest = pattern none rest ∨
      ∃ value value' length, joins value value' ∧
        pattern before (sign :: rest) = some (value, length + 1) ∧
        pattern none rest = some (value', length)

namespace Splits

variable {sign : Char} {joins : α → α → Prop} (h : Splits pattern sign rest joins)
include h

/-- **In front of the sign** nothing is found that was not found before, and the
scan meets the sign with nothing to skip. -/
theorem scanFrom_append (before : Option Char) {skip : ℕ} (hskip : skip ≤ text.length) :
    ∃ before', scanFrom pattern before skip (text ++ sign :: rest) =
      scanFrom pattern before skip text ++ scanFrom pattern before' 0 (sign :: rest) := by
  induction text generalizing before skip with
  | nil =>
      obtain rfl : skip = 0 := Nat.le_zero.mp hskip
      exact ⟨before, rfl⟩
  | cons c text ih =>
      cases skip with
      | succ k => exact ih (some c) (Nat.le_of_succ_le_succ hskip)
      | zero =>
          have hfront := h.front before (c :: text) (List.cons_ne_nil c text)
          rw [List.cons_append] at hfront ⊢
          rw [scanFrom, scanFrom, hfront]
          split
          · next value length hmatch =>
              obtain ⟨taken, more, htext, rfl, -, -⟩ := h.takes _ _ _ _ hmatch
              have hskip : taken.length - 1 ≤ text.length := by
                have hlength := congrArg List.length htext
                rw [List.length_append, List.length_cons] at hlength
                omega
              obtain ⟨before', heq⟩ := ih (some c) hskip
              exact ⟨before', by rw [heq, List.cons_append]⟩
          · obtain ⟨before', heq⟩ := ih (some c) (Nat.zero_le _)
            exact ⟨before', by rw [heq, List.cons_append]⟩

/-- What is found behind the sign, with the sign in front of it. -/
theorem scanFrom_cons (before : Option Char) :
    scanFrom pattern before 0 (sign :: rest) = .inl sign :: scan pattern rest ∨
      ∃ value value' more, joins value value' ∧
        scanFrom pattern before 0 (sign :: rest) = .inr value :: more ∧
        scan pattern rest = .inr value' :: more := by
  rw [scanFrom]
  rcases h.back before with ⟨hnone, hbefore⟩ | ⟨value, value', length, hjoins, hmatch, hmatch'⟩
  · left
    rw [hnone]
    cases rest with
    | nil => rfl
    | cons c rest =>
        simp only [scan]
        rw [scanFrom, scanFrom, hbefore]
  · right
    rw [hmatch]
    obtain ⟨taken, more, rfl, rfl, hne, -⟩ := h.takes _ _ _ _ hmatch'
    obtain ⟨c, taken, rfl⟩ := List.exists_cons_of_ne_nil hne
    refine ⟨value, value', _, hjoins, rfl, ?_⟩
    rw [List.cons_append] at hmatch' ⊢
    rw [scan, scanFrom, hmatch']
    rfl

/-- A text is rewritten part by part. -/
theorem replace_append (hwrite : ∀ v v', joins v v' → write v = sign :: write v') :
    replace pattern write (text ++ sign :: rest) =
      replace pattern write text ++ sign :: replace pattern write rest := by
  obtain ⟨before, hscan⟩ := h.scanFrom_append none (Nat.zero_le text.length)
  simp only [replace_eq_rewritten]
  rw [scan, hscan, rewritten, List.flatMap_append]
  rcases h.scanFrom_cons before with hback | ⟨v, v', more, hjoins, hback, hback'⟩
  · rw [hback]
    rfl
  · rw [hback, hback', List.flatMap_cons]
    simp only [hwrite v v' hjoins]
    rfl

/-- The matches are found part by part. -/
theorem map_matchesIn_append {f : α → β} (hf : ∀ v v', joins v v' → f v = f v') :
    (matchesIn pattern (text ++ sign :: rest)).map f =
      (matchesIn pattern text).map f ++ (matchesIn pattern rest).map f := by
  obtain ⟨before, hscan⟩ := h.scanFrom_append none (Nat.zero_le text.length)
  simp only [matchesIn]
  rw [scan, hscan, List.filterMap_append, List.map_append]
  congr 1
  rcases h.scanFrom_cons before with hback | ⟨v, v', more, hjoins, hback, hback'⟩
  · rw [hback]
    rfl
  · rw [hback, hback']
    simp only [List.filterMap_cons, List.map_cons, hf v v' hjoins]

end Splits

section Pieces

variable {sign : Char} {joins : α → α → Prop} {pieces : List (List Char)}
  (h : ∀ rest, Splits pattern sign rest joins)
include h

/-- A text whose pieces the sign keeps apart is rewritten piece by piece. -/
theorem Splits.replace_intercalate (hwrite : ∀ v v', joins v v' → write v = sign :: write v') :
    replace pattern write ([sign].intercalate pieces) =
      [sign].intercalate (pieces.map (replace pattern write)) := by
  induction pieces with
  | nil => rfl
  | cons piece pieces ih =>
      cases pieces with
      | nil => simp
      | cons next pieces =>
          rw [List.intercalate_cons_cons, List.append_assoc, List.singleton_append,
            (h _).replace_append hwrite, ih]
          simp [List.intercalate_cons_cons]

/-- The matches in a text whose pieces the sign keeps apart are those of its
pieces. -/
theorem Splits.map_matchesIn_intercalate {f : α → β} (hf : ∀ v v', joins v v' → f v = f v') :
    (matchesIn pattern ([sign].intercalate pieces)).map f =
      pieces.flatMap fun piece => (matchesIn pattern piece).map f := by
  induction pieces with
  | nil => rfl
  | cons piece pieces ih =>
      cases pieces with
      | nil => simp
      | cons next pieces =>
          rw [List.intercalate_cons_cons, List.append_assoc, List.singleton_append,
            (h _).map_matchesIn_append hf, ih]
          rfl

end Pieces

end CostAnalysis.Text
