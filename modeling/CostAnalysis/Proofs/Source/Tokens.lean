import CostAnalysis.Source.Lexer
import Mathlib.Data.List.TakeWhile

/-!
# The tokens of a text

Nothing of a text is lost in its tokens (`tokenize_lossless`): they stand in it
one after the other, each at the bytes that it says, the mark of the end stands
at the very end, and every byte between them belongs to something that is
skipped: a run of blanks, a run of line ends, or a comment up to the end of its
line.

**One induction.**  `Lexer.tokensFrom_lexemes` goes along the lexemes of a text
that can be divided, with one case for the end, one for a token and one for what
is skipped.  The other facts about tokens that readers rely on, the mark at
their end and the order of their lines, go along it as well.

The invariant of the lossless division (`Lexer.Tiling`) speaks about the whole
text and the part of it that lies behind, so that offsets never shift.
-/

namespace CostAnalysis

namespace Lexer

/-! ## Lexemes

What a lexeme is can be read off its class: a stretch of blanks, of line ends or
of name characters, a literal, a comment, or a sign from a table.  What is
skipped is described by the same classes. -/

/-- What may be skipped before `after`. -/
inductive Skipped (after run : List Char) : Prop
  | blanks (h : ∀ c ∈ run, isSpace c = true)
  | lineEnds (h : ∀ c ∈ run, isLineEnd c = true)
  /-- A comment has a mark at its front and reaches to the end of its line. -/
  | comment (hmark : ['/', '/'] <+: run ∨ ['►'] <+: run) (hline : ∀ c ∈ run, isLineEnd c = false)
      (hafter : ∀ c ∈ after.head?, isLineEnd c = true)

/-- What the class of a lexeme says about its characters, where `after`
follows. -/
def Lexeme.Describes (after run : List Char) : Lexeme → Prop
  | .token kind => kind ≠ .endOfInput
  | .invalid => True
  | .blank | .comment | .lineBreak => Skipped after run

/-- The characters of a run are the longest stretch of its characters at the
front. -/
theorem take_runLength (p : Char → Bool) (cs : List Char) :
    cs.take (runLength p cs) = cs.takeWhile p := by
  have h : (cs.takeWhile p ++ cs.dropWhile p).take (runLength p cs) = cs.takeWhile p :=
    List.take_left' rfl
  rwa [List.takeWhile_append_dropWhile] at h

theorem drop_runLength (p : Char → Bool) (cs : List Char) :
    cs.drop (runLength p cs) = cs.dropWhile p := by
  have h : (cs.takeWhile p ++ cs.dropWhile p).drop (runLength p cs) = cs.dropWhile p :=
    List.drop_left' rfl
  rwa [List.takeWhile_append_dropWhile] at h

/-- A run of a class holds nothing else. -/
theorem mem_cons_take_runLength {p : Char → Bool} {c : Char} {rest : List Char} (hc : p c = true) :
    ∀ d ∈ c :: rest.take (runLength p rest), p d = true := by
  rw [take_runLength]
  exact List.forall_mem_cons.mpr ⟨hc, fun d hd => List.mem_takeWhile_imp hd⟩

/-- No word is the mark of the end, so that the mark stands at the end only. -/
theorem wordKind_ne_endOfInput (word : List Char) : wordKind word ≠ .endOfInput := by
  have hwords : ∀ e ∈ TokenKind.keywords, e.2 ≠ .endOfInput := by decide
  rw [wordKind]
  cases h : TokenKind.keywords.lookup (String.ofList word) with
  | none => decide
  | some kind =>
      obtain ⟨before, after, hkeywords, -⟩ := List.lookup_eq_some_iff.mp h
      exact hwords (String.ofList word, kind) (by simp [hkeywords])

/-- A sign is a token, and the lexer says of it what is in the text. -/
theorem describes_signAt (after run cs : List Char) : (signAt cs).1.Describes after run := by
  have hsigns : ∀ e ∈ TokenKind.signs, e.2 ≠ .endOfInput := by decide
  rw [signAt]
  split
  · next spelling kind hsign => exact hsigns _ (List.mem_of_find?_eq_some hsign)
  · trivial

/-- A comment goes on to the end of its line. -/
theorem skipped_comment {c : Char} {rest : List Char} (hend : isLineEnd c = false)
    (hmark : (c == '►' || (c == '/' && rest.head? == some '/')) = true) :
    Skipped (rest.drop (runLength (fun d => !isLineEnd d) rest))
      (c :: rest.take (runLength (fun d => !isLineEnd d) rest)) := by
  refine .comment ?_ (fun d hd => ?_) ?_
  · rw [take_runLength]
    rcases (Bool.or_eq_true _ _).mp hmark with hc | hc
    · rw [beq_iff_eq.mp hc]
      exact Or.inr (List.prefix_append ['►'] _)
    · obtain ⟨hslash, hnext⟩ := (Bool.and_eq_true _ _).mp hc
      obtain ⟨more, rfl⟩ := List.head?_eq_some_iff.mp (beq_iff_eq.mp hnext)
      rw [beq_iff_eq.mp hslash, List.takeWhile_cons_of_pos (by decide)]
      exact Or.inl (List.prefix_append ['/', '/'] _)
  · have hrun := mem_cons_take_runLength (p := fun d => !isLineEnd d) (by simp [hend]) d hd
    simpa using hrun
  · intro d hd
    rw [drop_runLength] at hd
    have hstop := List.head?_dropWhile_not (fun d => !isLineEnd d) rest
    rw [Option.mem_def.mp hd] at hstop
    simpa using hstop

/-- **The class of a lexeme is right.** -/
theorem describes_lexemeAfter (c : Char) (rest : List Char) :
    (lexemeAfter c rest).1.Describes (rest.drop (lexemeAfter c rest).2)
      (c :: rest.take (lexemeAfter c rest).2) := by
  rw [lexemeAfter]
  split
  · next hspace => exact .blanks (mem_cons_take_runLength hspace)
  split
  · next hend => exact .lineEnds (mem_cons_take_runLength hend)
  next hend =>
  split
  · exact wordKind_ne_endOfInput _
  split
  · exact (by decide : TokenKind.numberLiteral ≠ .endOfInput)
  split
  · simp only
    split
    · exact (by decide : TokenKind.stringLiteral ≠ .endOfInput)
    · trivial
  split
  · next hmark => exact skipped_comment (Bool.eq_false_iff.mpr hend) hmark
  · exact describes_signAt _ _ _

/-! ## The induction -/

/-- **The lexemes of a text one by one**, as long as none is invalid. -/
theorem tokensFrom_lexemes {P : Position → List Char → List Token → Prop}
    (hend : ∀ position, P position [] [⟨.endOfInput, "", position⟩])
    (htoken : ∀ position c rest kind tail tokens, lexemeAfter c rest = (.token kind, tail) →
      P (advance position (.token kind) (c :: rest.take tail)) (rest.drop tail) tokens →
      P position (c :: rest) (⟨kind, String.ofList (c :: rest.take tail), position⟩ :: tokens))
    (hskip : ∀ position c rest lexeme tail tokens, lexemeAfter c rest = (lexeme, tail) →
      lexeme ≠ .invalid → (∀ kind, lexeme ≠ .token kind) →
      P (advance position lexeme (c :: rest.take tail)) (rest.drop tail) tokens →
      P position (c :: rest) tokens)
    {position : Position} {cs : List Char} {tokens : List Token}
    (h : tokensFrom position cs = .ok tokens) : P position cs tokens := by
  fun_induction tokensFrom position cs generalizing tokens with
  | case1 position =>
      cases h
      exact hend position
  | case2 => cases h
  | case3 position c rest tail text kind hlexeme =>
      rename_i ih
      cases hrest : tokensFrom (advance position (.token kind) text) (rest.drop tail) with
      | error e =>
          rw [hrest] at h
          cases h
      | ok later =>
          rw [hrest] at h
          cases h
          exact htoken position c rest kind tail later hlexeme (ih hrest)
  | case4 position c rest lexeme tail hlexeme text hinvalid hother =>
      rename_i ih
      exact hskip position c rest lexeme tail tokens hlexeme hinvalid hother (ih h)

/-- The same, with no more said about what is skipped than what it is made
of. -/
theorem tokensFrom_induction {P : Position → List Char → List Token → Prop}
    (hend : ∀ position, P position [] [⟨.endOfInput, "", position⟩])
    (htoken : ∀ position kind text after tokens, kind ≠ .endOfInput → text ≠ [] →
      P (advance position (.token kind) text) after tokens →
      P position (text ++ after) (⟨kind, String.ofList text, position⟩ :: tokens))
    (hskip : ∀ position lexeme run after tokens, Skipped after run → run ≠ [] →
      P (advance position lexeme run) after tokens → P position (run ++ after) tokens)
    {position : Position} {cs : List Char} {tokens : List Token}
    (h : tokensFrom position cs = .ok tokens) : P position cs tokens := by
  have hcs : ∀ (c : Char) (rest : List Char) (tail : ℕ),
      (c :: rest.take tail) ++ rest.drop tail = c :: rest := by simp
  refine tokensFrom_lexemes hend ?_ ?_ h
  · intro position c rest kind tail tokens hlexeme ih
    have hdescribes := describes_lexemeAfter c rest
    rw [hlexeme] at hdescribes
    rw [← hcs c rest tail]
    exact htoken position kind _ _ tokens hdescribes (List.cons_ne_nil _ _) ih
  · intro position c rest lexeme tail tokens hlexeme hinvalid hother ih
    have hdescribes := describes_lexemeAfter c rest
    rw [hlexeme] at hdescribes
    rw [← hcs c rest tail]
    refine hskip position lexeme _ _ tokens ?_ (List.cons_ne_nil _ _) ih
    cases lexeme with
    | token kind => exact absurd rfl (hother kind)
    | invalid => exact absurd rfl hinvalid
    | blank | comment | lineBreak => exact hdescribes

/-- The tokens of a text are ended by the mark of the end, and there are at most
as many others as characters. -/
theorem tokensFrom_ended {position : Position} {cs : List Char} {tokens : List Token}
    (h : tokensFrom position cs = .ok tokens) :
    tokens ≠ [] ∧ (∀ t ∈ tokens.getLast?, t.kind = .endOfInput) ∧
      tokens.length ≤ cs.length + 1 := by
  refine tokensFrom_induction (P := fun _ cs tokens => tokens ≠ [] ∧
    (∀ t ∈ tokens.getLast?, t.kind = .endOfInput) ∧ tokens.length ≤ cs.length + 1)
    (fun position => by simp) ?_ ?_ h
  · intro position kind text after tokens _ htext ih
    obtain ⟨hne, hlast, hlength⟩ := ih
    have hpos := List.length_pos_iff.mpr htext
    refine ⟨List.cons_ne_nil _ _, ?_, ?_⟩
    · rwa [List.getLast?_cons_of_ne_nil hne]
    · simp only [List.length_cons, List.length_append]
      omega
  · intro position lexeme run after tokens _ _ ih
    obtain ⟨hne, hlast, hlength⟩ := ih
    refine ⟨hne, hlast, ?_⟩
    rw [List.length_append]
    omega

/-- No lexeme takes the position to an earlier line. -/
theorem line_le_advance (position : Position) (lexeme : Lexeme) (text : List Char) :
    position.line ≤ (advance position lexeme text).line := by
  cases lexeme with
  | lineBreak => exact Nat.le_add_right _ _
  | _ => exact Nat.le_refl _

/-- Later tokens stand on later lines, or on the same. -/
theorem tokensFrom_lines {position : Position} {cs : List Char} {tokens : List Token}
    (h : tokensFrom position cs = .ok tokens) :
    tokens.Pairwise (fun t u => t.line ≤ u.line) ∧ ∀ t ∈ tokens, position.line ≤ t.line := by
  refine tokensFrom_induction (P := fun position _ tokens =>
    tokens.Pairwise (fun t u => t.line ≤ u.line) ∧ ∀ t ∈ tokens, position.line ≤ t.line)
    (fun position => by simp [Token.line]) ?_ ?_ h
  · intro position kind text after tokens _ _ ih
    have hlater : ∀ t ∈ tokens, position.line ≤ t.line := fun t ht =>
      (line_le_advance _ _ _).trans (ih.2 t ht)
    exact ⟨List.pairwise_cons.mpr ⟨hlater, ih.1⟩, List.forall_mem_cons.mpr ⟨Nat.le_refl _, hlater⟩⟩
  · intro position lexeme run after tokens _ _ ih
    exact ⟨ih.1, fun t ht => (line_le_advance _ _ _).trans (ih.2 t ht)⟩

end Lexer

/-! ## Places of tokens

Bytes are counted along the text, and a token says where it begins in these.
The tokens of a rest of the text are described together with all that stands in
front of it, so that no offset has to be shifted when the next token is put
before them. -/

namespace Token

variable (t u : Token)

/-- The offset behind the token. -/
def stop : ℕ :=
  t.position.offset + t.byteLength

/-- The token is what stands in the text at its bytes. -/
def IsSliceOf (text : String) : Prop :=
  text.toByteArray.extract t.position.offset t.stop = t.text.toByteArray

/-- The byte at the offset belongs to the token. -/
def Covers (offset : ℕ) : Prop :=
  t.position.offset ≤ offset ∧ offset < t.stop

/-- The token has a byte at least, and the other one begins behind it. -/
def Precedes : Prop :=
  t.position.offset < t.stop ∧ t.stop ≤ u.position.offset

end Token

namespace Lexer

/-- The number of bytes of a text. -/
def bytes (cs : List Char) : ℕ :=
  (String.ofList cs).utf8ByteSize

/-- Bytes add up along a text. -/
theorem bytes_append (cs ds : List Char) : bytes (cs ++ ds) = bytes cs + bytes ds := by
  rw [bytes, String.ofList_append, String.utf8ByteSize_append]
  rfl

/-- A text that is not empty has a byte at least, so that tokens do not stand at
the same place. -/
theorem bytes_pos {cs : List Char} (h : cs ≠ []) : 0 < bytes cs := by
  refine Nat.pos_of_ne_zero fun hzero => h ?_
  have hempty := String.utf8ByteSize_eq_zero_iff.mp hzero
  simpa using congrArg String.toList hempty

/-- The offset moves by just the bytes of a lexeme.  It is what ties the
position, which is counted lexeme by lexeme, to the text. -/
theorem offset_advance (position : Position) (lexeme : Lexeme) (text : List Char) :
    (advance position lexeme text).offset = position.offset + bytes text := by
  cases lexeme <;> rfl

/-- What stands between two parts of a text is found at its bytes. -/
theorem extract_bytes (front text after : List Char) :
    (String.ofList (front ++ (text ++ after))).toByteArray.extract (bytes front)
      (bytes front + bytes text) = (String.ofList text).toByteArray := by
  rw [String.ofList_append, String.ofList_append, String.toByteArray_append,
    String.toByteArray_append]
  exact (ByteArray.extract_append_size_add (i := 0)).trans (ByteArray.extract_append_eq_left rfl)

/-- Something skipped at the bytes from `first` to `last`, where no token
stands. -/
structure Gap (text : List Char) (tokens : List Token) (first last : ℕ) : Prop where
  skipped : ∃ before run after, text = before ++ (run ++ after) ∧ first = bytes before ∧
    last = bytes before + bytes run ∧ Skipped after run
  apart : ∀ t ∈ tokens, last ≤ t.position.offset ∨ t.stop ≤ first

/-- The tokens of the part of a text that comes after `front`. -/
structure Tiling (front cs : List Char) (tokens : List Token) : Prop where
  ended : ∃ init position, tokens = init ++ [⟨.endOfInput, "", position⟩] ∧
    position.offset = bytes (front ++ cs) ∧ ∀ t ∈ init, t.kind ≠ .endOfInput
  slices : ∀ t ∈ tokens, t.IsSliceOf (String.ofList (front ++ cs))
  ordered : tokens.Pairwise Token.Precedes
  behind : ∀ t ∈ tokens, bytes front ≤ t.position.offset
  covered : ∀ i, bytes front ≤ i → i < bytes (front ++ cs) → (∃ t ∈ tokens, t.Covers i) ∨
    ∃ first last, bytes front ≤ first ∧ first ≤ i ∧ i < last ∧ Gap (front ++ cs) tokens first last

namespace Tiling

variable {front after : List Char} {tokens : List Token}

/-- The mark of the end covers nothing, and stands behind the last byte. -/
theorem nil {position : Position} (hoffset : position.offset = bytes front) :
    Tiling front [] [⟨.endOfInput, "", position⟩] where
  ended := ⟨[], position, rfl, by rw [List.append_nil, hoffset], by simp⟩
  slices t ht := by
    cases List.mem_singleton.mp ht
    have h := extract_bytes front [] []
    rwa [List.append_nil, ← hoffset] at h
  ordered := List.pairwise_singleton _ _
  behind t ht := by
    cases List.mem_singleton.mp ht
    exact hoffset.ge
  covered i hfirst hlast := by
    rw [List.append_nil] at hlast
    omega

/-- A token is put in front.  Gaps that come later lie behind it. -/
theorem cons {text : List Char} {kind : TokenKind} {position : Position}
    (h : Tiling (front ++ text) after tokens) (hkind : kind ≠ .endOfInput) (htext : text ≠ [])
    (hoffset : position.offset = bytes front) :
    Tiling front (text ++ after) (⟨kind, String.ofList text, position⟩ :: tokens) := by
  obtain ⟨ended, slices, ordered, behind, covered⟩ := h
  rw [List.append_assoc] at ended slices covered
  rw [bytes_append] at behind covered
  generalize htoken : (⟨kind, String.ofList text, position⟩ : Token) = t
  have hstart : t.position.offset = bytes front := by rw [← htoken, hoffset]
  have hstop : t.stop = bytes front + bytes text := by
    rw [Token.stop, hstart, ← htoken]
    rfl
  -- the token comes before all later ones and covers its own bytes; the others
  -- are covered behind it
  refine ⟨?_, ?_, ?_, ?_, fun i hfirst hlast => ?_⟩
  · obtain ⟨init, last, rfl, hlast, hinit⟩ := ended
    refine ⟨t :: init, last, rfl, hlast, List.forall_mem_cons.mpr ⟨?_, hinit⟩⟩
    rwa [← htoken]
  · refine List.forall_mem_cons.mpr ⟨?_, slices⟩
    rw [Token.IsSliceOf, hstop, hstart, extract_bytes, ← htoken]
  · refine List.pairwise_cons.mpr ⟨fun u hu => ?_, ordered⟩
    have hpos := bytes_pos htext
    have hu := behind u hu
    exact ⟨by omega, by omega⟩
  · exact List.forall_mem_cons.mpr ⟨hstart.ge, fun u hu => by
      have hu := behind u hu
      omega⟩
  · rcases Nat.lt_or_ge i (bytes front + bytes text) with hinside | hbehind
    · exact Or.inl ⟨t, List.mem_cons_self, by omega, by omega⟩
    · rcases covered i hbehind hlast with ⟨u, hu, hcovers⟩ | ⟨first, last, hge, hle, hlt, hgap⟩
      · exact Or.inl ⟨u, List.mem_cons_of_mem _ hu, hcovers⟩
      · refine Or.inr ⟨first, last, by omega, hle, hlt, hgap.skipped, ?_⟩
        exact List.forall_mem_cons.mpr ⟨Or.inr (by omega), hgap.apart⟩

/-- Something skipped in front is a gap. -/
theorem skip {run : List Char} (h : Tiling (front ++ run) after tokens) (hrun : Skipped after run) :
    Tiling front (run ++ after) tokens := by
  obtain ⟨ended, slices, ordered, behind, covered⟩ := h
  rw [List.append_assoc] at ended slices covered
  rw [bytes_append] at behind covered
  refine ⟨ended, slices, ordered, fun t ht => (Nat.le_add_right _ _).trans (behind t ht),
    fun i hfirst hlast => ?_⟩
  rcases Nat.lt_or_ge i (bytes front + bytes run) with hinside | hbehind
  · refine Or.inr ⟨bytes front, bytes front + bytes run, Nat.le_refl _, hfirst, hinside, ?_⟩
    exact ⟨⟨front, run, after, rfl, rfl, rfl, hrun⟩, fun t ht => Or.inl (behind t ht)⟩
  · refine (covered i hbehind hlast).imp_right ?_
    rintro ⟨first, last, hge, hle, hlt, hgap⟩
    exact ⟨first, last, by omega, hle, hlt, hgap⟩

end Tiling

/-- The run: each lexeme is passed in one of the two ways. -/
theorem tiling_of_tokensFrom {position : Position} {cs : List Char} {tokens : List Token}
    (h : tokensFrom position cs = .ok tokens) {front : List Char}
    (hoffset : position.offset = bytes front) : Tiling front cs tokens := by
  refine tokensFrom_induction (P := fun position cs tokens => ∀ front,
    position.offset = bytes front → Tiling front cs tokens) ?_ ?_ ?_ h front hoffset
  · exact fun position front hoffset => .nil hoffset
  · intro position kind text after tokens hkind htext ih front hoffset
    refine (ih (front ++ text) ?_).cons hkind htext hoffset
    rw [offset_advance, bytes_append, hoffset]
  · intro position lexeme run after tokens hrun _ ih front hoffset
    refine (ih (front ++ run) ?_).skip hrun
    rw [offset_advance, bytes_append, hoffset]

end Lexer

/-- **Division into tokens is lossless.**  The tokens of a text, without the
byte order mark at its front, are ended by the only mark of the end, at the
offset behind the last byte; each is what stands in the text at its bytes; they
are in the order of their offsets and do not overlap; and a byte that belongs to
none of them lies in a run of blanks, a run of line ends, or a comment that
reaches to the end of its line, in which no token stands. -/
theorem tokenize_lossless {source : String} {tokens : List Token}
    (h : tokenize source = .ok tokens) :
    let text := stripMark source.toList
    (∃ init position, tokens = init ++ [⟨.endOfInput, "", position⟩] ∧
      position.offset = (String.ofList text).utf8ByteSize ∧ ∀ t ∈ init, t.kind ≠ .endOfInput) ∧
    (∀ t ∈ tokens, t.IsSliceOf (String.ofList text)) ∧
    tokens.Pairwise Token.Precedes ∧
    ∀ i < (String.ofList text).utf8ByteSize, (∀ t ∈ tokens, ¬ t.Covers i) →
      ∃ first last, first ≤ i ∧ i < last ∧ Lexer.Gap text tokens first last := by
  have htiling : Lexer.Tiling [] (stripMark source.toList) tokens :=
    Lexer.tiling_of_tokensFrom h rfl
  refine ⟨htiling.ended, htiling.slices, htiling.ordered, fun i hi huncovered => ?_⟩
  rcases htiling.covered i (Nat.zero_le i) hi with ⟨t, ht, hcovers⟩ | ⟨first, last, -, hgap⟩
  · exact absurd hcovers (huncovered t ht)
  · exact ⟨first, last, hgap⟩

/-- A text with a byte order mark, signs of several bytes, a literal with a
comment mark inside, and both kinds of comments. -/
def markedSource : String :=
  "\ufeffx🡨\"a//b\" ► first\r\n\t// second\nend"

/-- Behind the mark, which is no part of the text, every token is found at its
bytes although `🡨` takes four; and the second comment, from byte 18 to the end
of its line, is a gap. -/
theorem tokenize_lossless_markedSource :
    ∃ tokens, tokenize markedSource = .ok tokens ∧
      tokens.map Token.text = ["x", "🡨", "\"a//b\"", "end", ""] ∧
      tokens.Pairwise Token.Precedes ∧
      ∃ first last, first ≤ 18 ∧ 18 < last ∧
        Lexer.Gap (stripMark markedSource.toList) tokens first last := by
  have htokens : (tokenize markedSource).toOption.map (fun tokens => (tokens.map Token.text,
      tokens.map fun t => (t.position.offset, t.stop))) =
      some (["x", "🡨", "\"a//b\"", "end", ""], [(0, 1), (1, 5), (5, 11), (34, 37), (37, 37)]) := by
    decide +kernel
  cases h : tokenize markedSource with
  | error e =>
      rw [h] at htokens
      cases htokens
  | ok tokens =>
      rw [h] at htokens
      obtain ⟨htexts, hplaces⟩ := Prod.mk.inj (Option.some.inj htokens)
      obtain ⟨-, -, hordered, hgaps⟩ := tokenize_lossless h
      refine ⟨tokens, rfl, htexts, hordered, hgaps 18 (by decide +kernel) fun t ht hcovers => ?_⟩
      have hplace : (t.position.offset, t.stop) ∈ tokens.map fun t => (t.position.offset, t.stop) :=
        List.mem_map_of_mem ht
      rw [hplaces] at hplace
      obtain ⟨hle, hlt⟩ := hcovers
      simp only [List.mem_cons, Prod.mk.injEq, List.not_mem_nil, or_false] at hplace
      omega

end CostAnalysis
