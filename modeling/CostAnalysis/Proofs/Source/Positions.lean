import CostAnalysis.Proofs.Source.Tokens
import CostAnalysis.Proofs.Text.Scan
import Mathlib.Algebra.Order.BigOperators.Group.List
import Mathlib.Algebra.Order.Ring.Nat
import Mathlib.Data.List.DropRight

/-!
# The positions of tokens

`Position.behind front` is the place behind a text, counted in the text itself:
the line by its line breaks, the column by the characters after the last one,
the offset by its bytes.  A token knows its place from the lexemes before it,
one by one.  The two agree if and only if no literal before the token spans
lines (`tokenize_position_iff`): a line break inside a literal is passed without
being counted, and from there on every token is too far up.

What a lexeme may hold of line ends (`Lexer.LineEnds`) carries the proof.  A
break takes all line ends at its place, so that a carriage return and the line
feed behind it are never counted apart; a literal begins and ends with a quote;
and no other lexeme holds any.  `Lexer.Tracks` keeps the number of breaks that
were passed so far, and both directions are read off it.
-/

namespace CostAnalysis

namespace Lexer

/-- The number of line breaks in a text: carriage return and line feed together
are one, and so is each of them alone. -/
def breaksIn : List Char → ℕ
  | [] => 0
  | '\r' :: '\n' :: rest => breaksIn rest + 1
  | c :: rest => breaksIn rest + if isLineEnd c then 1 else 0

end Lexer

/-- The place behind a text. -/
def Position.behind (front : List Char) : Position where
  line := 1 + Lexer.breaksIn front
  column := 1 + (front.rtakeWhile fun c => !Lexer.isLineEnd c).length
  offset := Lexer.bytes front

namespace Lexer

/-! ## Line breaks in a text

A carriage return with a line feed behind it is one break, so breaks do not
simply add up when texts are put together.  They do where the two texts are
`Apart`. -/

/-- No carriage return at the end of the one text and line feed at the front of
the other. -/
def Apart (front text : List Char) : Prop :=
  front.getLast? = some '\r' → text.head? ≠ some '\n'

/-- A character that does not make one break with the next one is counted
alone. -/
theorem breaksIn_cons_of_apart {c : Char} {rest : List Char} (h : Apart [c] rest) :
    breaksIn (c :: rest) = breaksIn rest + if isLineEnd c then 1 else 0 := by
  rw [breaksIn]
  rintro more rfl rfl
  exact h rfl rfl

/-- **Breaks add up** along a text that is divided anywhere but between a
carriage return and its line feed.  The induction is on the front; the case of a
carriage return at its end is the one in which the two are apart by
assumption. -/
theorem breaksIn_append {front text : List Char} (h : Apart front text) :
    breaksIn (front ++ text) = breaksIn front + breaksIn text := by
  -- along the breaks of the first text: a pair of line ends is taken as one
  fun_induction breaksIn front with
  | case1 => simp
  | case2 rest ih =>
      have hrest : Apart rest text := by
        intro hlast
        exact h (by rw [List.getLast?_cons_cons, List.getLast?_cons, hlast]; rfl)
      show breaksIn (rest ++ text) + 1 = _
      rw [ih hrest]
      omega
  | case3 c rest hother ih =>
      have hrest : Apart rest text := by
        intro hlast
        exact h (by rw [List.getLast?_cons, hlast]; rfl)
      -- a carriage return at the very end is kept from the second text by the
      -- hypothesis
      have hfirst : Apart [c] (rest ++ text) := by
        intro hc hhead
        cases hc
        cases rest with
        | nil => exact h rfl hhead
        | cons d rest =>
            cases hhead
            exact hother rest rfl rfl
      rw [List.cons_append, breaksIn_cons_of_apart hfirst, ih hrest]
      omega

/-- Only line ends are counted. -/
theorem breaksIn_eq_zero_iff {text : List Char} :
    breaksIn text = 0 ↔ ∀ c ∈ text, isLineEnd c = false := by
  fun_induction breaksIn text with
  | case1 => simp
  | case2 rest ih => simp [isLineEnd]
  | case3 c rest hother ih =>
      rw [Nat.add_eq_zero_iff, ih, List.forall_mem_cons, and_comm]
      simp

/-- The lexer counts the breaks of a run of line ends as they are counted in a
text. -/
theorem breaksIn_of_lineEnds {run : List Char} (h : ∀ c ∈ run, isLineEnd c = true) :
    breaksIn run = lineBreaks run := by
  fun_induction lineBreaks run with
  | case1 => rfl
  | case2 rest ih =>
      rw [breaksIn, ih fun c hc => h c (by simp [hc])]
  | case3 c rest hother ih =>
      have hfirst : Apart [c] rest := by
        intro hc hhead
        cases hc
        obtain ⟨more, rfl⟩ := List.head?_eq_some_iff.mp hhead
        exact hother more rfl rfl
      rw [breaksIn_cons_of_apart hfirst, ih fun d hd => h d (by simp [hd]),
        h c List.mem_cons_self, if_pos rfl]

/-! ## Line ends of lexemes

By cases of the lexeme, what it may hold of line ends.  Only two of the cases
hold any, and everything about positions below is proved from these cases
without looking at lexemes again. -/

/-- What a lexeme holds of line ends, where `after` follows. -/
inductive LineEnds (after : List Char) : Lexeme → List Char → Prop
  /-- A break takes all line ends that there are. -/
  | lineBreak {run : List Char} (hrun : ∀ c ∈ run, isLineEnd c = true)
      (hafter : ∀ c ∈ after.head?, isLineEnd c = false) : LineEnds after .lineBreak run
  | literal (inner : List Char) :
      LineEnds after (.token .stringLiteral) ('"' :: (inner ++ ['"']))
  | none {lexeme : Lexeme} {run : List Char} (hlexeme : lexeme ≠ .lineBreak)
      (hrun : ∀ c ∈ run, isLineEnd c = false) : LineEnds after lexeme run

/-- A class of characters without the two line ends is on one line. -/
theorem isLineEnd_eq_false {p : Char → Bool} (hreturn : p '\r' = false) (hfeed : p '\n' = false)
    {c : Char} (hc : p c = true) : isLineEnd c = false := by
  rw [isLineEnd, Bool.or_eq_false_iff, beq_eq_false_iff_ne, beq_eq_false_iff_ne]
  constructor <;>
  · rintro rfl
    simp_all

/-- A number is made of digits and a point. -/
theorem isLineEnd_of_mem_numberTail {rest : List Char} :
    ∀ d ∈ rest.take (numberTail rest), isLineEnd d = false := by
  have hdigits : ∀ {text : List Char}, ∀ d ∈ text.take (runLength Text.isDecimalDigit text),
      isLineEnd d = false := by
    intro text d hd
    rw [take_runLength] at hd
    exact isLineEnd_eq_false (by decide) (by decide) (List.mem_takeWhile_imp hd)
  rw [numberTail]
  generalize hwhole : runLength Text.isDecimalDigit rest = whole
  have hfront : ∀ d ∈ rest.take whole, isLineEnd d = false := by
    rw [← hwhole]
    exact hdigits
  simp only
  split
  · next more hmore =>
      split
      · exact hfront
      · intro d hd
        rw [Nat.add_assoc, List.take_add, hmore, Nat.add_comm 1, List.take_succ_cons] at hd
        rcases List.mem_append.mp hd with hd | hd
        · exact hfront d hd
        · rcases List.mem_cons.mp hd with rfl | hd
          · decide
          · exact hdigits d hd
  · exact hfront

/-- A literal that is closed ends with a quote. -/
theorem exists_of_stringTail {rest : List Char} (h : (stringTail rest).2 = true) :
    ∃ inner, rest.take (stringTail rest).1 = inner ++ ['"'] := by
  fun_induction stringTail rest with
  | case1 => cases h
  | case2 => exact ⟨[], rfl⟩
  | case3 => cases h
  | case4 c rest hc n closed htail ih =>
      rw [htail] at ih
      obtain ⟨inner, hinner⟩ := ih h
      exact ⟨'\\' :: c :: inner, by simp [hinner]⟩
  | case5 => cases h
  | case6 c rest _ _ _ n closed htail ih =>
      rw [htail] at ih
      obtain ⟨inner, hinner⟩ := ih h
      exact ⟨c :: inner, by simp [hinner]⟩

/-- No sign has a line end in it. -/
theorem lineEnds_signAt {c : Char} {rest after : List Char}
    (h : (signAt (c :: rest)).1 ≠ .invalid) :
    LineEnds after (signAt (c :: rest)).1 (c :: rest.take (signAt (c :: rest)).2) := by
  -- no spelling of a sign has a line end in it
  have hsigns : ∀ sign ∈ TokenKind.signs, sign.1.toList ≠ [] ∧
      ∀ d ∈ sign.1.toList, isLineEnd d = false := by decide
  revert h
  rw [signAt]
  split
  · next spelling kind hsign =>
      intro _
      obtain ⟨hne, hends⟩ := hsigns _ (List.mem_of_find?_eq_some hsign)
      have hstart : spelling.toList.isPrefixOf (c :: rest) = true :=
        List.find?_some (p := fun sign : String × TokenKind => sign.1.toList.isPrefixOf (c :: rest))
          hsign
      obtain ⟨more, hmore⟩ := List.isPrefixOf_iff_prefix.mp hstart
      obtain ⟨d, ds, hspelling⟩ := List.exists_cons_of_ne_nil hne
      refine .none (by simp) ?_
      rw [hspelling] at hmore hends
      obtain ⟨rfl, rfl⟩ := List.cons.inj hmore
      have hlength : ds.length = spelling.length - 1 := by
        rw [← String.length_toList, hspelling]
        rfl
      show ∀ e ∈ d :: (ds ++ more).take (spelling.length - 1), isLineEnd e = false
      rwa [List.take_left' hlength]
  · exact fun h => absurd rfl h

/-- **What the lexemes of a text hold of line ends.** -/
theorem lineEnds_lexemeAfter (c : Char) (rest : List Char) (h : (lexemeAfter c rest).1 ≠ .invalid) :
    LineEnds (rest.drop (lexemeAfter c rest).2) (lexemeAfter c rest).1
      (c :: rest.take (lexemeAfter c rest).2) := by
  revert h
  rw [lexemeAfter]
  split
  · next hspace =>
      refine fun _ => .none (by simp) fun d hd => ?_
      exact isLineEnd_eq_false (by decide) (by decide) (mem_cons_take_runLength hspace d hd)
  split
  · next hend =>
      -- a break takes all line ends, so none stands behind it
      refine fun _ => .lineBreak (mem_cons_take_runLength hend) fun d hd => ?_
      rw [drop_runLength] at hd
      have hstop := List.head?_dropWhile_not isLineEnd rest
      rw [Option.mem_def.mp hd] at hstop
      simpa using hstop
  next hend =>
  split
  · next hname =>
      refine fun _ => .none (by simp) fun d hd => ?_
      have hstart : isNameChar c = true := Bool.or_eq_true_iff.mpr (Or.inl hname)
      exact isLineEnd_eq_false (by decide) (by decide) (mem_cons_take_runLength hstart d hd)
  split
  · next hdigit =>
      refine fun _ => .none (by simp) (List.forall_mem_cons.mpr ⟨?_, isLineEnd_of_mem_numberTail⟩)
      exact isLineEnd_eq_false (by decide) (by decide) hdigit
  split
  · next hquote =>
      simp only
      split
      · next hclosed =>
          intro _
          obtain ⟨inner, hinner⟩ := exists_of_stringTail hclosed
          rw [hinner, beq_iff_eq.mp hquote]
          exact .literal inner
      · exact fun h => absurd rfl h
  split
  · refine fun _ => .none (by simp) fun d hd => ?_
    have hrun := mem_cons_take_runLength (p := fun d => !isLineEnd d) (by simpa using hend) d hd
    simpa using hrun
  · exact lineEnds_signAt

/-! ## Positions along a text

The place that the lexer keeps and the place that is counted differ in the line
alone, by the number of breaks in literals so far.  So the two places agree just
if this number is zero. -/

/-- The position is that behind a text, but for the line breaks that were passed
without being counted. -/
structure Tracks (passed : ℕ) (front : List Char) (position : Position) : Prop where
  offset : position.offset = bytes front
  line : position.line + passed = (Position.behind front).line
  column : passed = 0 → position.column = (Position.behind front).column

/-- The position is that behind the text just if every break was counted: lines
are then equal, and columns and offsets are equal in any case. -/
theorem Tracks.eq_behind_iff {passed : ℕ} {front : List Char} {position : Position}
    (h : Tracks passed front position) : position = Position.behind front ↔ passed = 0 := by
  constructor
  · rintro rfl
    have hline := h.line
    omega
  · rintro rfl
    obtain ⟨line, column, offset⟩ := position
    rw [Position.mk.injEq]
    exact ⟨h.line, h.column rfl, h.offset⟩

/-- The line breaks in a lexeme that are passed without being counted. -/
def passedBy (lexeme : Lexeme) (run : List Char) : ℕ :=
  if lexeme = .lineBreak then 0 else breaksIn run

/-- Characters on a line move the column by their number. -/
theorem column_behind_of_onLine {front run : List Char} (h : ∀ c ∈ run, isLineEnd c = false) :
    (Position.behind (front ++ run)).column = (Position.behind front).column + run.length := by
  have hrun : ∀ c ∈ run.reverse, (!isLineEnd c) = true := fun c hc => by
    simp [h c (List.mem_reverse.mp hc)]
  simp only [Position.behind, List.rtakeWhile, List.reverse_append,
    List.takeWhile_append_of_pos hrun, List.length_append, List.length_reverse]
  omega

/-- Behind a line end the column starts again, whatever came before. -/
theorem column_behind_of_lineEnds {front run : List Char} (hne : run ≠ [])
    (h : ∀ c ∈ run, isLineEnd c = true) : (Position.behind (front ++ run)).column = 1 := by
  have hlast : ¬(!isLineEnd (run.getLast hne)) = true := by simp [h _ (List.getLast_mem hne)]
  rw [Position.behind, ← List.dropLast_append_getLast hne, ← List.append_assoc,
    List.rtakeWhile_concat_neg (fun c => !isLineEnd c) _ _ hlast]
  rfl

section Step

variable {passed : ℕ} {front run after : List Char} {lexeme : Lexeme} {position : Position}

/-- A lexeme and what follows it are apart, since a break takes all line
ends. -/
theorem LineEnds.apart (h : LineEnds after lexeme run) (hne : run ≠ []) :
    Apart (front ++ run) after := by
  intro hlast hhead
  rw [List.getLast?_append_of_ne_nil _ hne] at hlast
  have hmem : '\r' ∈ run := List.mem_of_getLast? hlast
  cases h with
  | lineBreak hrun hafter => exact absurd (hafter _ hhead) (by decide)
  | literal inner =>
      rw [← List.cons_append, List.getLast?_concat] at hlast
      exact absurd hlast (by decide)
  | none hlexeme hrun => exact absurd (hrun _ hmem) (by decide)

/-- Only a token may hold a break that is not counted. -/
theorem LineEnds.passedBy_eq_zero (h : LineEnds after lexeme run)
    (hlexeme : ∀ kind, lexeme ≠ .token kind) : passedBy lexeme run = 0 := by
  cases h with
  | lineBreak hrun hafter => rfl
  | literal inner => exact absurd rfl (hlexeme _)
  | none hother hrun => rw [passedBy, if_neg hother, breaksIn_eq_zero_iff.mpr hrun]

/-- **One lexeme**: what it passes is added to what was passed before. -/
theorem Tracks.advance (h : Tracks passed front position) (hends : LineEnds after lexeme run)
    (hne : run ≠ []) (hapart : Apart front run) :
    Tracks (passed + passedBy lexeme run) (front ++ run) (advance position lexeme run) := by
  obtain ⟨hoffset, hline, hcolumn⟩ := h
  have hbreaks : (Position.behind (front ++ run)).line =
      (Position.behind front).line + breaksIn run := by
    simp only [Position.behind, breaksIn_append hapart]
    omega
  refine ⟨by rw [offset_advance, hoffset, bytes_append], ?_, ?_⟩
  -- a break is counted, a literal is passed without, and nothing else has any
  · rw [hbreaks]
    cases hends with
    | lineBreak hrun hafter =>
        rw [breaksIn_of_lineEnds hrun]
        simp only [Lexer.advance, passedBy, if_true]
        omega
    | literal inner =>
        simp only [Lexer.advance, passedBy, reduceCtorEq, if_false]
        omega
    | none hlexeme hrun =>
        cases lexeme with
        | lineBreak => exact absurd rfl hlexeme
        | _ =>
            simp only [Lexer.advance, passedBy, reduceCtorEq, if_false]
            omega
  -- with no break passed the column is right as well
  · intro hzero
    obtain ⟨hpassed, hrest⟩ := Nat.add_eq_zero_iff.mp hzero
    cases lexeme with
    | lineBreak =>
        cases hends with
        | lineBreak hrun hafter => rw [column_behind_of_lineEnds hne hrun]; rfl
        | none hlexeme hrun => exact absurd rfl hlexeme
    | _ =>
        have hrun := breaksIn_eq_zero_iff.mp hrest
        rw [column_behind_of_onLine hrun, ← hcolumn hpassed]
        rfl

end Step

/-- The line breaks in tokens. -/
def breaksInTokens (tokens : List Token) : ℕ :=
  (tokens.map fun t => breaksIn t.text.toList).sum

/-- **All lexemes**: the position of a token misses the breaks in the tokens
before it.  Lexemes that are no tokens hold no break that is not counted. -/
theorem tracks_of_tokensFrom {passed : ℕ} {position : Position} {front cs : List Char}
    {tokens : List Token} (h : tokensFrom position cs = .ok tokens)
    (hposition : Tracks passed front position) (hapart : Apart front cs)
    {before later : List Token} {t : Token} (ht : tokens = before ++ t :: later) :
    ∃ front' after, front ++ cs = front' ++ (t.text.toList ++ after) ∧
      Apart front' (t.text.toList ++ after) ∧
      Tracks (passed + breaksInTokens before) front' t.position := by
  -- along the lexemes, the text in front and what was passed generalized
  refine tokensFrom_lexemes (P := fun position cs tokens => ∀ passed front before,
    Tracks passed front position → Apart front cs → tokens = before ++ t :: later →
    ∃ front' after, front ++ cs = front' ++ (t.text.toList ++ after) ∧
      Apart front' (t.text.toList ++ after) ∧
      Tracks (passed + breaksInTokens before) front' t.position) ?_ ?_ ?_ h
    passed front before hposition hapart ht
  · intro position passed front before htracks hapart ht
    cases before with
    | nil =>
        cases ht
        exact ⟨front, [], rfl, hapart, htracks⟩
    | cons u before => simp at ht
  · intro position c rest kind tail tokens hlexeme ih passed front before htracks hapart ht
    have hends := lineEnds_lexemeAfter c rest (by simp [hlexeme])
    rw [hlexeme] at hends
    have hcs : (c :: rest.take tail) ++ rest.drop tail = c :: rest := by simp
    cases before with
    | nil =>
        cases ht
        rw [String.toList_ofList]
        exact ⟨front, rest.drop tail, by rw [hcs], by rwa [hcs], htracks⟩
    | cons u before =>
        obtain ⟨rfl, hlater⟩ := List.cons.inj ht
        have hnext := htracks.advance hends (List.cons_ne_nil _ _) hapart
        obtain ⟨front', after, htext, hapart', htracks'⟩ :=
          ih _ _ before hnext (hends.apart (List.cons_ne_nil _ _)) hlater
        refine ⟨front', after, ?_, hapart', ?_⟩
        · rw [← htext, List.append_assoc, hcs]
        · convert htracks' using 1
          simp [breaksInTokens, passedBy, Nat.add_assoc]
  · intro position c rest lexeme tail tokens hlexeme hinvalid hother ih passed front before
      htracks hapart ht
    have hends := lineEnds_lexemeAfter c rest (by rwa [hlexeme])
    rw [hlexeme] at hends
    have hcs : (c :: rest.take tail) ++ rest.drop tail = c :: rest := by simp
    have hnext := htracks.advance hends (List.cons_ne_nil _ _) hapart
    rw [hends.passedBy_eq_zero hother] at hnext
    obtain ⟨front', after, htext, hapart', htracks'⟩ :=
      ih _ _ before hnext (hends.apart (List.cons_ne_nil _ _)) ht
    exact ⟨front', after, by rw [← htext, List.append_assoc, hcs], hapart', htracks'⟩

/-- Only literals hold line ends. -/
theorem isLineEnd_of_tokensFrom {position : Position} {cs : List Char} {tokens : List Token}
    (h : tokensFrom position cs = .ok tokens) :
    ∀ t ∈ tokens, t.kind ≠ .stringLiteral → ∀ c ∈ t.text.toList, isLineEnd c = false := by
  refine tokensFrom_lexemes (P := fun _ _ tokens => ∀ t ∈ tokens, t.kind ≠ .stringLiteral →
    ∀ c ∈ t.text.toList, isLineEnd c = false) ?_ ?_ ?_ h
  · simp
  · intro position c rest kind tail tokens hlexeme ih
    have hends := lineEnds_lexemeAfter c rest (by simp [hlexeme])
    rw [hlexeme] at hends
    refine List.forall_mem_cons.mpr ⟨fun hkind => ?_, ih⟩
    rw [String.toList_ofList]
    generalize hrun : c :: rest.take tail = run at hends
    cases hends with
    | literal inner => exact absurd rfl hkind
    | none hlexeme hrun => exact hrun
  · intro position c rest lexeme tail tokens hlexeme hinvalid hother ih
    exact ih

/-- No break is missed if and only if no literal spans lines. -/
theorem breaksInTokens_eq_zero_iff {position : Position} {cs : List Char}
    {before later : List Token} (h : tokensFrom position cs = .ok (before ++ later)) :
    breaksInTokens before = 0 ↔
      ∀ t ∈ before, t.kind = .stringLiteral → ∀ c ∈ t.text.toList, isLineEnd c = false := by
  rw [breaksInTokens, List.sum_eq_zero_iff]
  simp only [List.forall_mem_map, breaksIn_eq_zero_iff]
  refine forall₂_congr fun t ht => ⟨fun hends _ => hends, fun hliteral => ?_⟩
  by_cases hkind : t.kind = .stringLiteral
  · exact hliteral hkind
  · exact isLineEnd_of_tokensFrom h t (List.mem_append_left _ ht) hkind

/-- **The place of a token** in a source text. -/
theorem tracks_of_tokenize {source : String} {before later : List Token} {t : Token}
    (h : tokenize source = .ok (before ++ t :: later)) :
    ∃ front after, stripMark source.toList = front ++ (t.text.toList ++ after) ∧
      Apart front (t.text.toList ++ after) ∧ Tracks (breaksInTokens before) front t.position := by
  have hstart : Tracks 0 [] {} := ⟨rfl, rfl, fun _ => rfl⟩
  have hplace := tracks_of_tokensFrom h hstart (fun hlast => by cases hlast) rfl
  rwa [Nat.zero_add, List.nil_append] at hplace

end Lexer

/-- **Where the position of a token is its place.**  A token stands in the text,
without the byte order mark at its front, at the offset that it says; and its
line and its column are those of that place if and only if no literal before it
spans lines. -/
theorem tokenize_position_iff {source : String} {before later : List Token} {t : Token}
    (h : tokenize source = .ok (before ++ t :: later)) :
    ∃ front after, stripMark source.toList = front ++ (t.text.toList ++ after) ∧
      t.position.offset = (String.ofList front).utf8ByteSize ∧
      (t.position = Position.behind front ↔
        ∀ u ∈ before, u.kind = .stringLiteral →
          ∀ c ∈ u.text.toList, Lexer.isLineEnd c = false) := by
  obtain ⟨front, after, htext, -, htracks⟩ := Lexer.tracks_of_tokenize h
  refine ⟨front, after, htext, htracks.offset, ?_⟩
  rw [htracks.eq_behind_iff, Lexer.breaksInTokens_eq_zero_iff h]

/-- A literal and a comment on the first line, then all three kinds of line
breaks in a row. -/
def mixedBreaks : String :=
  "x 🡨 \"a\" // set\r\n\r\n\r  y"

/-- The literal `"a"` spans no lines, so the next token is where it says: on
line 4, since the carriage return, the line feed, and the two together are three
breaks. -/
theorem tokenize_position_iff_mixedBreaks :
    ∃ before t later front after, tokenize mixedBreaks = .ok (before ++ t :: later) ∧
      before.map Token.text = ["x", "🡨", "\"a\""] ∧
      stripMark mixedBreaks.toList = front ++ (t.text.toList ++ after) ∧
      t.position = Position.behind front ∧ t.position = ⟨4, 3, 24⟩ := by
  have htokens : (tokenize mixedBreaks).toOption = some ([⟨.identifier, "x", ⟨1, 1, 0⟩⟩,
      ⟨.assign, "🡨", ⟨1, 3, 2⟩⟩, ⟨.stringLiteral, "\"a\"", ⟨1, 5, 7⟩⟩] ++
      ⟨.identifier, "y", ⟨4, 3, 24⟩⟩ :: [⟨.endOfInput, "", ⟨4, 4, 25⟩⟩]) := by
    decide +kernel
  cases h : tokenize mixedBreaks with
  | error e =>
      rw [h] at htokens
      cases htokens
  | ok tokens =>
      rw [h] at htokens
      cases Option.some.inj htokens
      obtain ⟨front, after, htext, -, hplace⟩ := tokenize_position_iff h
      exact ⟨_, _, _, front, after, rfl, rfl, htext, hplace.mpr (by decide), rfl⟩

/-- A literal that spans two lines: what follows it stands on the second one,
but is placed on the first. -/
theorem tokenize_position_spannedLiteral :
    ∃ tokens t, tokenize "\"a\nb\" x" = .ok tokens ∧ t ∈ tokens ∧
      stripMark "\"a\nb\" x".toList = "\"a\nb\" ".toList ++ t.text.toList ∧
      t.position = ⟨1, 7, 6⟩ ∧ Position.behind "\"a\nb\" ".toList = ⟨2, 4, 6⟩ := by
  have htokens : (tokenize "\"a\nb\" x").toOption = some [⟨.stringLiteral, "\"a\nb\"", ⟨1, 1, 0⟩⟩,
      ⟨.identifier, "x", ⟨1, 7, 6⟩⟩, ⟨.endOfInput, "", ⟨1, 8, 7⟩⟩] := by
    decide +kernel
  cases h : tokenize "\"a\nb\" x" with
  | error e =>
      rw [h] at htokens
      cases htokens
  | ok tokens =>
      rw [h] at htokens
      cases Option.some.inj htokens
      refine ⟨_, ⟨.identifier, "x", ⟨1, 7, 6⟩⟩, rfl, by simp, ?_, rfl, ?_⟩
      · decide +kernel
      · decide +kernel

end CostAnalysis
