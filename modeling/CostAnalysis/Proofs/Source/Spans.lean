import CostAnalysis.Proofs.Source.Operations

/-!
# The lines of statements nest and follow each other

In a program that was read every procedure and every statement ends no earlier
than it starts, lies within the lines of what it stands in, and starts no
earlier than the one before it ends (`Program.arranged_of_parse`).  Costs are
attributed to lines, and rest on this.

## What carries the proof

A span runs from the line of the token at which a statement starts to that of
the last token that it consumed.  So it needs three things.

* **Lines do not decrease** along the tokens of a text, which is an invariant of
  the cursor (`Cursor.Ordered`).
* **Readers only move forward** (`Parse.Takes.moves`), so that the invariant is
  kept and the line that was passed last can only grow (`Cursor.To`).
* **A statement consumes the token at which it starts** (`Parse.Takes.passes`).
  This matters for the other arm of a branch, which may be a branch itself and
  then has no word of its own behind it.

## How readers are described

`Parse.Ensures` says of one run of a reader where it ends.  The readers of
statements are gone through once more with it, and between the two ends of each
of them the statements are laid out (`Stmt.LaidOut`).  A statement is read piece
by piece, and its span is known only at the end; so what is said of the rest of
a statement carries along the statements that were found in its blocks so far
(`Parse.LaysRest`), and hands them over when the span is made
(`Parse.LaysRest.span`).
-/

namespace CostAnalysis

/-! ## Spans

Two lines of a token are never compared directly.  What a reader keeps is that
statements are laid out between two lines (`Stmt.LaidOut`), and that composes:
lists of statements are appended, and the blocks of a statement become what it
spans. -/

namespace LineSpan

/-- The span is known and ends no earlier than it starts. -/
def Proper : LineSpan → Prop
  | .unknown => False
  | .lines first last => first ≤ last

/-- The span lies within another one. -/
def Within : LineSpan → LineSpan → Prop
  | .lines first last, .lines first' last' => first' ≤ first ∧ last ≤ last'
  | _, _ => False

/-- The span ends before another one starts, or on the line on which it
starts. -/
def Precedes : LineSpan → LineSpan → Prop
  | .lines _ last, .lines first _ => last ≤ first
  | _, _ => False

/-- What lies within known lines has known lines of its own. -/
theorem within_lines_iff {span : LineSpan} {first last : ℕ} :
    span.Within (.lines first last) ↔ ∃ a b, span = .lines a b ∧ first ≤ a ∧ b ≤ last := by
  cases span with
  | unknown => simp [Within]
  | lines a b => simp [Within]

end LineSpan

namespace Stmt

/-- Statements lie within the lines of what they stand in, one after the
other. -/
structure Arranged (outer : LineSpan) (body : Block) : Prop where
  within : ∀ st ∈ body, st.lines.Within outer
  ordered : body.Pairwise fun s t => s.lines.Precedes t.lines

/-- The statement and all statements in it have proper spans, and the statements
of the blocks of each, in source order, are arranged within its lines. -/
def Nested (st : Stmt) : Prop :=
  ∀ t ∈ preorder st, t.lines.Proper ∧ Arranged t.lines t.blocks.flatten

/-- The statement spans just these lines, and what is in it is nested. -/
structure Spans (first last : ℕ) (st : Stmt) : Prop where
  lines_eq : st.lines = .lines first last
  le : first ≤ last
  nested : st.Nested

/-- Nested statements that are arranged between two lines. -/
structure LaidOut (first last : ℕ) (body : Block) : Prop where
  arranged : Arranged (.lines first last) body
  nested : ∀ st ∈ body, st.Nested

/-- A statement is nested if what stands in its blocks is laid out between its
lines. -/
theorem Spans.of_blocks {st : Stmt} {first last : ℕ} (hlines : st.lines = .lines first last)
    (hle : first ≤ last) (hblocks : LaidOut first last st.blocks.flatten) :
    Spans first last st := by
  refine ⟨hlines, hle, fun t ht => ?_⟩
  rcases mem_preorder.mp ht with rfl | ⟨body, hbody, ht⟩
  · rw [hlines]
    exact ⟨hle, hblocks.arranged⟩
  · obtain ⟨s, hs, ht⟩ := mem_preorderAll.mp ht
    exact hblocks.nested s (List.mem_flatten_of_mem hbody hs) t ht

namespace LaidOut

variable {first last mid mid' : ℕ} {st : Stmt} {body body' : Block}

theorem nil : LaidOut first last [] :=
  ⟨⟨by simp, .nil⟩, by simp⟩

/-- What is laid out between two lines is laid out between lines further
apart. -/
theorem mono (h : LaidOut mid mid' body) (hfirst : first ≤ mid) (hlast : mid' ≤ last) :
    LaidOut first last body := by
  refine ⟨⟨fun st hst => ?_, h.arranged.ordered⟩, h.nested⟩
  obtain ⟨a, b, hlines, ha, hb⟩ := LineSpan.within_lines_iff.mp (h.arranged.within st hst)
  exact LineSpan.within_lines_iff.mpr ⟨a, b, hlines, hfirst.trans ha, hb.trans hlast⟩

/-- A statement is laid out between its own lines. -/
theorem singleton (h : st.Spans first last) : LaidOut first last [st] := by
  refine ⟨⟨?_, List.pairwise_singleton _ _⟩, ?_⟩
  · simp only [List.forall_mem_singleton, h.lines_eq]
    exact ⟨Nat.le_refl _, Nat.le_refl _⟩
  · simpa using h.nested

/-- Statements that end before others start come before them. -/
theorem append (h : LaidOut first mid body) (h' : LaidOut mid' last body') (hmid : mid ≤ mid')
    (hfirst : first ≤ mid') (hlast : mid ≤ last) : LaidOut first last (body ++ body') := by
  have hbody := h.mono (Nat.le_refl first) hlast
  have hbody' := h'.mono hfirst (Nat.le_refl last)
  refine ⟨⟨List.forall_mem_append.mpr ⟨hbody.arranged.within, hbody'.arranged.within⟩, ?_⟩,
    List.forall_mem_append.mpr ⟨h.nested, h'.nested⟩⟩
  -- one from the front ends before the middle, and one from the back starts
  -- behind it
  refine List.pairwise_append.mpr ⟨h.arranged.ordered, h'.arranged.ordered, fun s hs t ht => ?_⟩
  obtain ⟨a, b, hs, -, hb⟩ := LineSpan.within_lines_iff.mp (h.arranged.within s hs)
  obtain ⟨a', b', ht, ha', -⟩ := LineSpan.within_lines_iff.mp (h'.arranged.within t ht)
  rw [hs, ht]
  exact hb.trans (hmid.trans ha')

/-- At every depth. -/
theorem nested_of_mem (h : LaidOut first last body) :
    ∀ t ∈ preorderAll body, t.lines.Proper ∧ Arranged t.lines t.blocks.flatten := by
  intro t ht
  obtain ⟨st, hst, ht⟩ := mem_preorderAll.mp ht
  exact h.nested st hst t ht

end LaidOut

end Stmt

/-- The procedure spans just these lines, between which its statements are laid
out. -/
structure Function.Spans (first last : ℕ) (f : Function) : Prop where
  lines_eq : f.lines = .lines first last
  le : first ≤ last
  body : Stmt.LaidOut first last f.body

/-! ## Cursors

Lines do not decrease along the tokens, so a reader that moves on ends no
earlier than it started.  The last token is never passed, and that is why the
line of the token just before the cursor is always that of a token that was
read. -/

namespace Cursor

/-- From the token before the current one on, lines do not decrease, and the
last token is the mark of the end. -/
structure Ordered (c : Cursor) : Prop where
  ended : c.Ended
  lines : (c.current :: c.rest).Pairwise fun t u => t.line ≤ u.line
  previous_le : c.previousLine ≤ c.current.line

/-- The second cursor is further on. -/
structure To (c c' : Cursor) : Prop where
  ordered : c'.Ordered
  previous_le : c.previousLine ≤ c'.previousLine
  current_le : c.current.line ≤ c'.current.line

variable {c c' c'' : Cursor}

theorem Ordered.to_self (h : c.Ordered) : c.To c :=
  ⟨h, Nat.le_refl _, Nat.le_refl _⟩

/-- To be further on is transitive; of the invariant only that of the last
cursor is kept. -/
theorem To.trans (h : c.To c') (h' : c'.To c'') : c.To c'' :=
  ⟨h'.ordered, h.previous_le.trans h'.previous_le, h.current_le.trans h'.current_le⟩

/-- **One token further** the invariant holds again, since no line decreased. -/
theorem Ordered.to_step (h : c.Ordered) : c.To (Parse.step c) := by
  obtain ⟨hended, hlines, hprevious⟩ := h
  obtain ⟨current, rest, line⟩ := c
  cases rest with
  | nil => exact Ordered.to_self ⟨hended, hlines, hprevious⟩
  | cons t ts =>
      obtain ⟨hfirst, hlater⟩ := List.pairwise_cons.mp hlines
      have hle : current.line ≤ t.line := hfirst t List.mem_cons_self
      exact ⟨⟨hended, hlater, hle⟩, hprevious, hle⟩

theorem Ordered.to_iterate (h : c.Ordered) (n : ℕ) : c.To (Parse.step^[n] c) := by
  induction n generalizing c with
  | zero => exact h.to_self
  | succ n ih => exact h.to_step.trans (ih h.to_step.ordered)

/-- The line of a token that was consumed is behind. -/
theorem Ordered.line_le_previousLine (h : c.Ordered) {n : ℕ} (hpos : 0 < n)
    (hn : n ≤ c.rest.length) : c.current.line ≤ (Parse.step^[n] c).previousLine := by
  obtain ⟨k, rfl⟩ := Nat.exists_eq_succ_of_ne_zero hpos.ne'
  have hstep : (Parse.step c).previousLine = c.current.line := by
    obtain ⟨current, rest, line⟩ := c
    cases rest with
    | nil => simp at hn
    | cons t ts => rfl
  rw [Function.iterate_succ_apply, ← hstep]
  exact (h.to_step.ordered.to_iterate k).previous_le

end Cursor

namespace Parse

variable {α β : Type} {m : Parse α} {c : Cursor} {Q R : α → Cursor → Prop} {p : TokenKind → Prop}

/-- Whatever the reader returns from here, and where it ends, satisfies `Q`. -/
def Ensures (m : Parse α) (c : Cursor) (Q : α → Cursor → Prop) : Prop :=
  ∀ a c', m.run c = .ok (a, c') → Q a c'

namespace Ensures

theorem mono (h : Ensures m c Q) (hQ : ∀ a c', Q a c' → R a c') : Ensures m c R :=
  fun a c' hrun => hQ a c' (h a c' hrun)

/-- A value is returned where the reader stands. -/
theorem pure {a : α} (h : Q a c) : Ensures (pure a) c Q := by
  intro b c' hrun
  cases hrun
  exact h

/-- **One reader after another**: the second one starts where the first one
ended. -/
theorem bind {f : α → Parse β} {Q : β → Cursor → Prop}
    (h : Ensures m c fun a c' => Ensures (f a) c' Q) : Ensures (m >>= f) c Q := by
  intro b c'' hrun
  rw [StateT.run_bind] at hrun
  cases hfirst : m.run c with
  | error e =>
      rw [hfirst] at hrun
      cases hrun
  | ok result =>
      rw [hfirst] at hrun
      exact h result.1 result.2 hfirst b c'' hrun

/-- A decision, each way of which may use the condition. -/
theorem ite {b : Prop} [Decidable b] {m' : Parse α} (hm : b → Ensures m c Q)
    (hm' : ¬b → Ensures m' c Q) : Ensures (if b then m else m') c Q := by
  split
  · next hb => exact hm hb
  · next hb => exact hm' hb

/-- A run that fails returns nothing. -/
theorem fail (cause : Token → SyntaxError.Cause) : Ensures (Parse.fail cause) c Q := by
  intro a c' hrun
  cases hrun

theorem unexpected (what : String) : Ensures (Parse.unexpected what) c Q :=
  fail _

/-- The current token is known here, since the statement is about one run. -/
theorem peek_bind {f : Token → Parse β} {Q : β → Cursor → Prop} (h : Ensures (f c.current) c Q) :
    Ensures (peek >>= f) c Q :=
  h

theorem kind_bind {f : TokenKind → Parse β} {Q : β → Cursor → Prop}
    (h : Ensures (f c.current.kind) c Q) : Ensures (kind >>= f) c Q :=
  h

theorem remaining_bind {f : ℕ → Parse β} {Q : β → Cursor → Prop}
    (h : Ensures (f (c.rest.length + 1)) c Q) : Ensures (remaining >>= f) c Q :=
  h

/-- The span of a statement whose first token was consumed. -/
theorem spanFrom_bind {line : ℕ} {f : LineSpan → Parse β} {Q : β → Cursor → Prop}
    (hline : line ≤ c.previousLine) (h : Ensures (f (.lines line c.previousLine)) c Q) :
    Ensures (spanFrom line >>= f) c Q := by
  have hspan : LineSpan.of line c.previousLine = .lines line c.previousLine :=
    congrArg (LineSpan.lines line) (Nat.max_eq_right hline)
  rw [← hspan] at h
  exact h

end Ensures

/-- A reader that takes tokens moves on. -/
theorem Takes.moves {Q : α → ℕ → Prop} (h : Takes (fun _ => True) m Q) (hc : c.Ordered) :
    Ensures m c fun _ c' => c.To c' := by
  intro a c' hrun
  obtain ⟨n, -, rfl, -⟩ := h c a c' hc.ended trivial hrun
  exact hc.to_iterate n

/-- A reader that takes a token moves beyond the current one. -/
theorem Takes.passes {Q : α → ℕ → Prop} (h : Takes p m Q) (hp : p c.current.kind)
    (hQ : ∀ a n, Q a n → 0 < n) (hc : c.Ordered) :
    Ensures m c fun _ c' => c.To c' ∧ c.current.line ≤ c'.previousLine := by
  intro a c' hrun
  obtain ⟨n, hn, rfl, hq⟩ := h c a c' hc.ended hp hrun
  exact ⟨hc.to_iterate n, hc.line_le_previousLine (hQ a n hq) hn⟩

/-! ## Statements

Every reader of a statement starts on a line that it remembers and goes on to
read blocks.  `Parse.LaysRest` is the state in between: the first line, and the
statements that were read so far, laid out behind it. -/

/-- The reader of a statement moves on, and the statement spans the lines from
the token at which it starts to the last one that was consumed. -/
def LaysStatement (c : Cursor) (statement : Parse Stmt) : Prop :=
  Ensures statement c fun st c' => c.To c' ∧ st.Spans c.current.line c'.previousLine

/-- The reader moves on, and the statements that it returns are laid out between
its two ends. -/
def LaysBlock (read : Parse α) (statements : α → Block) : Prop :=
  ∀ c : Cursor, c.Ordered → Ensures read c fun a c' =>
    c.To c' ∧ Stmt.LaidOut c.current.line c'.previousLine (statements a)

/-- Reads the rest of a statement that starts on `line` and in whose blocks the
statements `inner` stand so far. -/
def LaysRest (line : ℕ) (inner : Block) (rest : Parse Stmt) : Prop :=
  ∀ c : Cursor, c.Ordered → line ≤ c.previousLine → Stmt.LaidOut line c.previousLine inner →
    Ensures rest c fun st c' => c.To c' ∧ st.Spans line c'.previousLine

/-- A statement starts with a token of its own. -/
theorem lays_of_starts {f : α → Parse Stmt}
    (hm : Ensures m c fun _ c' => c.To c' ∧ c.current.line ≤ c'.previousLine)
    (hf : ∀ a, LaysRest c.current.line [] (f a)) : LaysStatement c (m >>= f) := by
  refine .bind (hm.mono ?_)
  rintro a c₁ ⟨h₁, hline⟩
  exact (hf a c₁ h₁.ordered hline .nil).mono fun _ _ h => ⟨h₁.trans h.1, h.2⟩

namespace LaysRest

variable {line : ℕ} {inner : Block}

/-- What stands between the blocks does not matter. -/
theorem after {Q : α → ℕ → Prop} {f : α → Parse Stmt} (hm : Takes (fun _ => True) m Q)
    (hf : ∀ a, LaysRest line inner (f a)) : LaysRest line inner (m >>= f) := by
  intro c hc hline hinner
  refine .bind ((hm.moves hc).mono fun a c₁ h₁ => ?_)
  have hinner₁ := hinner.mono (Nat.le_refl line) h₁.previous_le
  exact (hf a c₁ h₁.ordered (hline.trans h₁.previous_le) hinner₁).mono fun _ _ h =>
    ⟨h₁.trans h.1, h.2⟩

/-- The statements of a block come after those that are there already. -/
theorem block {read : Parse α} {statements : α → Block} {f : α → Parse Stmt}
    (hread : LaysBlock read statements) (hf : ∀ a, LaysRest line (inner ++ statements a) (f a)) :
    LaysRest line inner (read >>= f) := by
  intro c hc hline hinner
  refine .bind ((hread c hc).mono ?_)
  rintro a c₁ ⟨h₁, hmore⟩
  have hinner₁ := hinner.append hmore hc.previous_le (hline.trans hc.previous_le) h₁.previous_le
  exact (hf a c₁ h₁.ordered (hline.trans h₁.previous_le) hinner₁).mono fun _ _ h =>
    ⟨h₁.trans h.1, h.2⟩

/-- At the end the statement gets its span. -/
theorem span {build : LineSpan → Stmt} (hlines : ∀ l, (build l).lines = l)
    (hblocks : ∀ l, (build l).blocks.flatten = inner) :
    LaysRest line inner (spanFrom line >>= fun l => pure (build l)) := by
  intro c hc hline hinner
  refine .spanFrom_bind hline (.pure ⟨hc.to_self, .of_blocks (hlines _) hline ?_⟩)
  rwa [hblocks]

/-- The rest of a statement may be read in two ways. -/
theorem ite {b : Prop} [Decidable b] {m m' : Parse Stmt} (hm : LaysRest line inner m)
    (hm' : LaysRest line inner m') : LaysRest line inner (if b then m else m') := by
  split
  · exact hm
  · exact hm'

theorem fail (cause : Token → SyntaxError.Cause) : LaysRest line inner (Parse.fail cause) :=
  fun _ _ _ _ => .fail cause

theorem peek_bind {f : Token → Parse Stmt} (h : ∀ t, LaysRest line inner (f t)) :
    LaysRest line inner (peek >>= f) :=
  fun c => h c.current c

theorem kind_bind {f : TokenKind → Parse Stmt} (h : ∀ k, LaysRest line inner (f k)) :
    LaysRest line inner (kind >>= f) :=
  fun c => h c.current.kind c

theorem remaining_bind {f : ℕ → Parse Stmt} (h : ∀ n, LaysRest line inner (f n)) :
    LaysRest line inner (remaining >>= f) :=
  fun c => h (c.rest.length + 1) c

end LaysRest

variable {statement : Parse Stmt} (hstatement : ∀ c, c.Ordered → LaysStatement c statement)
include hstatement

/-- **The statements of a block follow each other**, by induction on the fuel:
each is laid out between its own ends, and the next one starts behind it. -/
theorem lays_statementsUntil (close : TokenKind) (fuel : ℕ) :
    LaysBlock (statementsUntil statement close fuel) id := by
  induction fuel with
  | zero => exact fun c hc => .pure ⟨hc.to_self, .nil⟩
  | succ fuel ih =>
      intro c hc
      rw [statementsUntil]
      refine .remaining_bind (.bind (((takes_skipSemicolons _).moves hc).mono fun _ c₁ h₁ => ?_))
      refine .kind_bind (.ite (fun _ => .pure ⟨h₁, .nil⟩) fun _ => ?_)
      refine .ite (fun _ => .fail _) fun _ => ?_
      refine .bind ((hstatement c₁ h₁.ordered).mono ?_)
      rintro st c₂ ⟨h₂, hst⟩
      refine .bind ((ih c₂ h₂.ordered).mono ?_)
      rintro sts c₃ ⟨h₃, hsts⟩
      refine .pure ?_
      have hboth := (Stmt.LaidOut.singleton hst).append hsts h₂.ordered.previous_le h₂.current_le
        h₃.previous_le
      exact ⟨h₁.trans (h₂.trans h₃), hboth.mono h₁.current_le (Nat.le_refl _)⟩

/-- A block stands between its two words. -/
theorem lays_block : LaysBlock (block statement) id := by
  intro c hc
  rw [block]
  refine .bind (((takes_expect (by decide) _).moves hc).mono fun _ c₁ h₁ => .remaining_bind ?_)
  refine .bind ((lays_statementsUntil hstatement _ _ c₁ h₁.ordered).mono fun body c₂ h₂ => ?_)
  refine .bind (((takes_expect (by decide) _).moves h₂.1.ordered).mono fun _ c₃ h₃ => .pure ?_)
  exact ⟨h₁.trans (h₂.1.trans h₃), h₂.2.mono h₁.current_le h₃.previous_le⟩

/-- An arm that is a branch itself is laid out like a block. -/
theorem lays_elseArm : LaysBlock (elseArm statement) (·.getD []) := by
  intro c hc
  rw [elseArm]
  refine .bind (((takes_accept (by decide)).moves hc).mono fun _ c₁ h₁ => ?_)
  refine .ite (fun _ => .kind_bind (.ite (fun _ => ?_) fun _ => ?_)) fun _ => .pure ⟨h₁, .nil⟩
  · refine .bind ((hstatement c₁ h₁.ordered).mono ?_)
    rintro st c₂ ⟨h₂, hst⟩
    exact .pure ⟨h₁.trans h₂, (Stmt.LaidOut.singleton hst).mono h₁.current_le (Nat.le_refl _)⟩
  · refine .bind ((lays_block hstatement c₁ h₁.ordered).mono ?_)
    rintro body c₂ ⟨h₂, hbody⟩
    exact .pure ⟨h₁.trans h₂, hbody.mono h₁.current_le (Nat.le_refl _)⟩

/-- A counting loop: its body is the only block. -/
theorem lays_forStatement (line : ℕ) : LaysRest line [] (forStatement statement line) := by
  rw [forStatement]
  refine .after (takes_identifier _) fun name => .after (takes_expect (by decide) _) fun _ => ?_
  refine .after takes_expression fun first => .after (takes_accept (by decide)) fun descending => ?_
  -- the word between the bounds is consumed in one of two ways, and then the
  -- loop goes on as before
  have hrest : LaysRest line [] (do
      let second ← expression
      let _ ← expect .doWord "'do'"
      let body ← block statement
      let lines ← spanFrom line
      return if descending then .forLoop lines name second first body
        else .forLoop lines name first second body) := by
    refine .after takes_expression fun second => .after (takes_expect (by decide) _) fun _ => ?_
    refine .block (lays_block hstatement) fun body => .span (fun l => ?_) fun l => ?_
    · split <;> rfl
    · split <;> simp [Stmt.blocks]
  exact .ite (.after (takes_expect (by decide) _) fun _ => hrest) hrest

/-- A loop with its condition at the front. -/
theorem lays_whileStatement (line : ℕ) : LaysRest line [] (whileStatement statement line) := by
  rw [whileStatement]
  refine .after takes_expression fun cond => .after (takes_expect (by decide) _) fun _ => ?_
  exact .block (lays_block hstatement) fun body => .span (fun _ => rfl) fun _ => by
    simp [Stmt.blocks]

/-- A loop with its condition at the end, whose body may stand in words of its
own. -/
theorem lays_repeatStatement (line : ℕ) : LaysRest line [] (repeatStatement statement line) := by
  -- the body is read in one of two ways
  have hrest : ∀ body : Block, LaysRest line ([] ++ id body) (do
      let _ ← expect .untilWord "'until'"
      let cond ← expression
      return .whileLoop (← spanFrom line) (.unary .not cond) body) := by
    intro body
    refine .after (takes_expect (by decide) _) fun _ => .after takes_expression fun cond => ?_
    exact .span (fun _ => rfl) fun _ => by simp [Stmt.blocks]
  rw [repeatStatement]
  refine .kind_bind fun k => .ite ?_ (.remaining_bind fun fuel => ?_)
  · exact .block (lays_block hstatement) hrest
  · exact .block (lays_statementsUntil hstatement _ fuel) hrest

/-- A branch: the statements of the second arm come after those of the first. -/
theorem lays_ifStatement (line : ℕ) : LaysRest line [] (ifStatement statement line) := by
  rw [ifStatement]
  refine .after takes_expression fun cond => .after (takes_expect (by decide) _) fun _ => ?_
  refine .block (lays_block hstatement) fun yes => .block (lays_elseArm hstatement) fun no => ?_
  refine .span (fun _ => rfl) fun _ => ?_
  cases no with
  | none => simp [Stmt.blocks]
  | some no => simp [Stmt.blocks]

omit hstatement

/-- A return has no blocks. -/
theorem lays_returnStatement (line : ℕ) : LaysRest line [] (returnStatement line) := by
  have hrest : ∀ value : Option Expr, LaysRest line [] (do
      return .returns (← spanFrom line) value) :=
    fun value => .span (fun _ => rfl) fun _ => rfl
  rw [returnStatement]
  refine .peek_bind fun next => .ite ?_ ?_
  · exact .after (.map (Q := fun _ _ => True) (takes_expression.mono fun _ _ _ => trivial)) hrest
  · exact .after (.pure (Q := fun _ _ => True) trivial) hrest

/-- Neither has a call. -/
theorem lays_callStatement (line : ℕ) : LaysRest line [] (callStatement line) := by
  rw [callStatement]
  refine .after (takes_identifier _) fun name => ?_
  exact .after (takes_arguments takes_expression) fun args => .span (fun _ => rfl) fun _ => rfl

/-- Nor has a declaration. -/
theorem lays_declaration (line : ℕ) : LaysRest line [] (declaration line) := by
  have hname : Takes (fun _ => True) (identifier "variable name") fun _ n => 0 ≤ n :=
    (takes_identifier _).mono fun _ _ _ => Nat.zero_le _
  rw [declaration]
  refine .remaining_bind fun fuel => .after (takes_commaList hname fuel) fun names => ?_
  exact .span (fun _ => rfl) fun _ => rfl

/-- The words of an action line: the first one stands on its line. -/
theorem ensures_lineWords (hc : c.Ordered) (hkind : c.current.kind ≠ .endOfInput) (fuel : ℕ) :
    Ensures (lineWords c.current.line (fuel + 1)) c fun _ c' =>
      c.To c' ∧ c.current.line ≤ c'.previousLine := by
  have hword : endsLine c.current.line c.current = false := by simp [endsLine, hkind]
  rw [lineWords]
  refine .peek_bind (.ite (fun h => ?_) fun _ => ?_)
  · rw [hword] at h
    cases h
  · have hadvance : Takes (· ≠ .endOfInput) advance fun _ n => n = 1 := takes_advance fun _ h => h
    refine .bind ((hadvance.passes hkind (by omega) hc).mono ?_)
    rintro _ c₁ ⟨h₁, hline⟩
    refine .bind (((takes_lineWords _ _).moves h₁.ordered).mono fun words c₂ h₂ => .pure ?_)
    exact ⟨h₁.trans h₂, hline.trans h₂.previous_le⟩

theorem passes_expression (hc : c.Ordered) :
    Ensures expression c fun _ c' => c.To c' ∧ c.current.line ≤ c'.previousLine :=
  takes_expression_pos.passes (p := fun _ => True) trivial (fun _ _ h => h.2) hc

/-- An assignment or an action line starts with an expression or a word, which
it consumes. -/
theorem lays_simpleStatement (hc : c.Ordered) (hkind : c.current.kind ≠ .endOfInput) :
    LaysStatement c (simpleStatement c.current.line) := by
  rw [simpleStatement]
  -- to tell whether the line is an action only looks at it
  have hlook : ∀ f : Bool → Parse Stmt, (∀ b, LaysStatement c (f b)) →
      LaysStatement c (isActionLine >>= f) := fun f h => h _
  refine hlook _ fun _ => .ite (fun _ => ?_) fun _ => ?_
  · refine .remaining_bind (lays_of_starts (ensures_lineWords hc hkind _) fun words => ?_)
    exact .span (fun _ => rfl) fun _ => rfl
  · refine lays_of_starts (passes_expression hc) fun target => ?_
    refine .after (takes_accept (by decide)) fun _ => ?_
    refine .ite ?_ (.ite (.span (fun _ => rfl) fun _ => rfl) (.fail _))
    have hrest : LaysRest c.current.line [] (do
        let value ← expression
        return .assign (← spanFrom c.current.line) target value) :=
      .after takes_expression fun value => .span (fun _ => rfl) fun _ => rfl
    exact .ite (.after (.fail (Q := fun _ _ => True) _) fun _ => hrest) hrest

/-- One level of statements. -/
theorem lays_statementOf (hstatement : ∀ c, c.Ordered → LaysStatement c statement)
    (hc : c.Ordered) : LaysStatement c (statementOf statement) := by
  have hadvance : ∀ {k : TokenKind} {rest : Parse Stmt}, c.current.kind = k → k ≠ .endOfInput →
      LaysRest c.current.line [] rest → LaysStatement c (advance >>= fun _ => rest) := by
    intro k rest hkind hk hrest
    have hadvance : Takes (· ≠ .endOfInput) advance fun _ n => n = 1 := takes_advance fun _ h => h
    exact lays_of_starts (hadvance.passes (hkind ▸ hk) (by omega) hc) fun _ => hrest
  rw [statementOf]
  refine .peek_bind ?_
  split
  · next hkind => exact hadvance hkind (by decide) (lays_forStatement hstatement _)
  · next hkind => exact hadvance hkind (by decide) (lays_whileStatement hstatement _)
  · next hkind => exact hadvance hkind (by decide) (lays_repeatStatement hstatement _)
  · next hkind => exact hadvance hkind (by decide) (lays_ifStatement hstatement _)
  · next hkind => exact hadvance hkind (by decide) (lays_returnStatement _)
  · next hkind => exact hadvance hkind (by decide) (lays_callStatement _)
  · next hkind => exact hadvance hkind (by decide) (lays_declaration _)
  · next hkind => exact lays_simpleStatement hc (hkind ▸ by decide)
  · refine .ite (fun _ => ?_) fun _ => .unexpected _
    exact lays_of_starts (passes_expression hc) fun e => .span (fun _ => rfl) fun _ => rfl

/-- Statements to any depth, by induction on the depth. -/
theorem lays_statementTo (depth : ℕ) (hc : c.Ordered) : LaysStatement c (statementTo depth) := by
  induction depth generalizing c with
  | zero => exact .unexpected _
  | succ depth ih => exact lays_statementOf (fun c hc => ih hc) hc

theorem lays_statement (hc : c.Ordered) : LaysStatement c Parse.statement :=
  .remaining_bind (lays_statementTo _ hc)

/-! ## Procedures -/

/-- A procedure spans the lines from its first token to its last one. -/
theorem ensures_function (hc : c.Ordered) :
    Ensures function c fun f c' => c.To c' ∧ f.Spans c.current.line c'.previousLine := by
  rw [function]
  refine .peek_bind (.bind (((takes_accept (by decide)).moves hc).mono fun _ c₁ h₁ => ?_))
  refine .bind (((takes_identifier _).passes (p := fun _ => True) trivial (by omega)
    h₁.ordered).mono ?_)
  rintro name c₂ ⟨h₂, hname⟩
  refine .bind (((takes_expect (by decide) _).moves h₂.ordered).mono fun _ c₃ h₃ => ?_)
  refine .bind (((takes_listUntil takes_parameter (by decide) _).moves h₃.ordered).mono
    fun params c₄ h₄ => ?_)
  refine .bind ((lays_block (fun _ => lays_statement) c₄ h₄.ordered).mono ?_)
  rintro body c₅ ⟨h₅, hbody⟩
  have hto := h₁.trans (h₂.trans (h₃.trans (h₄.trans h₅)))
  have hlast : c.current.line ≤ c₅.previousLine :=
    (h₁.current_le.trans hname).trans (h₃.trans (h₄.trans h₅)).previous_le
  refine .spanFrom_bind hlast (.pure ⟨hto, rfl, hlast, ?_⟩)
  exact hbody.mono (h₁.trans (h₂.trans (h₃.trans h₄))).current_le (Nat.le_refl _)

/-- **Procedures follow each other**, too, each behind the line that was passed
before it. -/
theorem ensures_functions (fuel : ℕ) (hc : c.Ordered) :
    Ensures (functions fuel) c fun fs _ =>
      (∀ f ∈ fs, ∃ first last, c.current.line ≤ first ∧ f.Spans first last) ∧
        fs.Pairwise fun f g => f.lines.Precedes g.lines := by
  induction fuel generalizing c with
  | zero => exact .pure (by simp)
  | succ fuel ih =>
      rw [functions]
      refine .remaining_bind (.bind (((takes_skipSemicolons _).moves hc).mono fun _ c₁ h₁ => ?_))
      refine .kind_bind (.ite (fun _ => .pure (by simp)) fun _ => ?_)
      refine .bind ((ensures_function h₁.ordered).mono ?_)
      rintro f c₂ ⟨h₂, hf⟩
      refine .bind ((ih h₂.ordered).mono ?_)
      rintro fs c₃ ⟨hfs, hordered⟩
      refine .pure ⟨?_, ?_⟩
      · refine List.forall_mem_cons.mpr ⟨⟨_, _, h₁.current_le, hf⟩, fun g hg => ?_⟩
        obtain ⟨first, last, hfirst, hg⟩ := hfs g hg
        exact ⟨first, last, (h₁.trans h₂).current_le.trans hfirst, hg⟩
      · refine List.pairwise_cons.mpr ⟨fun g hg => ?_, hordered⟩
        obtain ⟨first, last, hfirst, hg⟩ := hfs g hg
        rw [hf.lines_eq, hg.lines_eq]
        exact h₂.ordered.previous_le.trans hfirst

/-- All procedures of a program. -/
theorem ensures_program (hc : c.Ordered) :
    Ensures program c fun p _ =>
      (∀ f ∈ p.functions, ∃ first last, f.Spans first last) ∧
        p.functions.Pairwise fun f g => f.lines.Precedes g.lines := by
  rw [program]
  refine .remaining_bind (.bind ((ensures_functions _ hc).mono ?_))
  rintro fs c₁ ⟨hfs, hordered⟩
  refine .ite (fun _ => .bind (.fail _)) fun _ => .pure ⟨fun f hf => ?_, hordered⟩
  obtain ⟨first, last, -, hspans⟩ := hfs f hf
  exact ⟨first, last, hspans⟩

end Parse

/-- At the front of the tokens of a text the cursor is ordered. -/
theorem Cursor.ordered_of_tokenize {source : String} {t : Token} {ts : List Token}
    (h : tokenize source = .ok (t :: ts)) : (⟨t, ts, 1⟩ : Cursor).Ordered := by
  obtain ⟨hordered, hfirst⟩ := Lexer.tokensFrom_lines h
  exact ⟨(Lexer.tokensFrom_ended h).2.1, hordered, hfirst t List.mem_cons_self⟩

/-- What reading a program ensures. -/
theorem Program.spans_of_parse {source : String} {p : Program}
    (h : Program.parse source = .ok p) :
    (∀ f ∈ p.functions, ∃ first last, f.Spans first last) ∧
      p.functions.Pairwise fun f g => f.lines.Precedes g.lines := by
  obtain ⟨t, ts, c, htokens, hrun⟩ := Program.exists_run_of_parse h
  exact Parse.ensures_program (Cursor.ordered_of_tokenize htokens) p c hrun

/-- **Spans nest and follow each other.**  In a program that was read the
procedures follow each other; each has a proper span, in which its statements
lie one after the other; and so has each statement at any depth, in which the
statements of its blocks lie one after the other, those of the first arm of a
branch before those of the other. -/
theorem Program.arranged_of_parse {source : String} {p : Program}
    (h : Program.parse source = .ok p) :
    (p.functions.Pairwise fun f g => f.lines.Precedes g.lines) ∧
    ∀ f ∈ p.functions, f.lines.Proper ∧ Stmt.Arranged f.lines f.body ∧
      ∀ st ∈ Stmt.preorderAll f.body,
        st.lines.Proper ∧ Stmt.Arranged st.lines st.blocks.flatten := by
  obtain ⟨hfunctions, hordered⟩ := Program.spans_of_parse h
  refine ⟨hordered, fun f hf => ?_⟩
  obtain ⟨first, last, hspans⟩ := hfunctions f hf
  rw [hspans.lines_eq]
  exact ⟨hspans.le, hspans.body.arranged, hspans.body.nested_of_mem⟩

/-- Two procedures that share a line, with an arm that is a branch, a loop with
its test at the end, an action line and stray semicolons. -/
def nestedSource : String :=
  "procedure f(n)\nbegin\n  if n > 0 then begin\n    x 🡨 n;;\n  end else if n < 0 then begin" ++
  " y 🡨 0 end\n  repeat\n    swap A with B\n  until x = 0\nend g(n) begin return\nend"

/-- In that text the second procedure begins on the line on which the first one
ends, and the spans of all statements are as written. -/
theorem Program.arranged_of_parse_nestedSource :
    ∃ p f g, Program.parse nestedSource = .ok p ∧ p.functions = [f, g] ∧
      f.lines.Precedes g.lines ∧ Stmt.Arranged f.lines f.body ∧
      (Stmt.preorderAll f.body).map Stmt.lines = [.lines 3 5, .lines 4 4, .lines 5 5, .lines 5 5,
        .lines 6 8, .lines 7 7] := by
  have hparse : (Program.parse nestedSource).toOption.map (fun p => p.functions.map fun f =>
      (Stmt.preorderAll f.body).map Stmt.lines) =
      some [[.lines 3 5, .lines 4 4, .lines 5 5, .lines 5 5, .lines 6 8, .lines 7 7],
        [.lines 9 9]] := by
    decide +kernel
  cases h : Program.parse nestedSource with
  | error e =>
      rw [h] at hparse
      cases hparse
  | ok p =>
      rw [h] at hparse
      obtain ⟨hordered, hfunctions⟩ := Program.arranged_of_parse h
      obtain ⟨f, fs, hf, hlines, hfs⟩ := List.map_eq_cons_iff.mp (Option.some.inj hparse)
      obtain ⟨g, rest, rfl, -, hrest⟩ := List.map_eq_cons_iff.mp hfs
      cases List.map_eq_nil_iff.mp hrest
      rw [hf] at hordered
      refine ⟨p, f, g, rfl, hf, ?_, (hfunctions f (by simp [hf])).2.1, hlines⟩
      exact (List.pairwise_cons.mp hordered).1 g List.mem_cons_self

/-! ## Located statements -/

/-- All statements of a block, at every depth, say on which line they start. -/
def Stmt.AllLocated (body : Block) : Prop :=
  ∀ t ∈ preorderAll body, ∃ line, t.lines.first? = some line

/-- A statement built by hand may not know its lines, but one that was read
does. -/
theorem Program.located_of_parse {source : String} {p : Program}
    (h : Program.parse source = .ok p) : ∀ f ∈ p.functions, Stmt.AllLocated f.body := by
  intro f hf st hst
  obtain ⟨first, last, hspans⟩ := (Program.spans_of_parse h).1 f hf
  have hproper := (hspans.body.nested_of_mem st hst).1
  cases hlines : st.lines with
  | unknown =>
      rw [hlines] at hproper
      cases hproper
  | lines a b => exact ⟨a, rfl⟩

end CostAnalysis
