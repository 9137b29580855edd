import CostAnalysis.Proofs.Cost.Expected
import CostAnalysis.Proofs.Source.Tokens
import CostAnalysis.Proofs.Source.Trees
import CostAnalysis.Source.Parser

/-!
# A text has at least as many characters as its statements have operations

A statement built by hand may have any number of operations, but one that was
read from a text has at most one more than the text has characters
(`Program.operations_le_of_parse`).  So the operations of a statement of a text
that fits a memory are counted in one word.

**Readers and tokens.**  `Parse.Takes` describes a reader by what it returns
together with the number of tokens that it consumes.  Numbers of tokens add up
along a sequence of readers (`Parse.Takes.bind`), and every operator, call and
comparison has a token of its own.  The last token marks the end and is never
consumed, so a reader only moves on where the current token is another one; the
condition on the kind of the current token keeps track of that.

**What is counted.**  For an expression the count is `Parse.Counted`: at most
one operation for a token.  A statement may have one operation without a token
of its own, which is the one more (`Parse.Spanned`), and it says the same of all
statements inside of it, because that is what the readers of blocks return.
Where a reader returns nothing that has operations, all that is needed of it is
that it moves on, and its lemma claims no more than that.
-/

namespace CostAnalysis

/-- Indices add their operations to those of what they are applied to. -/
theorem Expr.operations_foldl_index (es : List Expr) (e : Expr) :
    (es.foldl .index e).operations = e.operations + (es.map operations).sum := by
  induction es generalizing e with
  | nil => rfl
  | cons i es ih => rw [List.foldl_cons, ih, operations, List.map_cons, List.sum_cons, add_assoc]

/-- The tokens from the current one on are ended by the mark of the end. -/
def Cursor.Ended (c : Cursor) : Prop :=
  ∀ t ∈ (c.current :: c.rest).getLast?, t.kind = .endOfInput

/-- One token further the same mark is at the end. -/
theorem Cursor.Ended.step {c : Cursor} (h : c.Ended) : (Parse.step c).Ended := by
  obtain ⟨current, rest, line⟩ := c
  cases rest with
  | nil => exact h
  | cons t ts => exact h

/-- **The reader stays exactly at the mark of the end.**  On the tokens of a
text there is one such mark, behind all others, so that to stay on the last
token and to stay on the mark are the same. -/
theorem Cursor.rest_eq_nil_iff {source : String} {tokens : List Token}
    (h : tokenize source = .ok tokens) {c : Cursor} (hc : c.current :: c.rest <:+ tokens) :
    c.rest = [] ↔ c.current.kind = .endOfInput := by
  have htiling : Lexer.Tiling [] (stripMark source.toList) tokens :=
    Lexer.tiling_of_tokensFrom h rfl
  obtain ⟨init, position, htokens, -, hinit⟩ := htiling.ended
  obtain ⟨front, hfront⟩ := hc
  rw [htokens] at hfront
  rcases List.eq_nil_or_concat c.rest with hrest | ⟨more, last, hrest⟩
  · rw [hrest] at hfront
    obtain ⟨-, hcurrent⟩ := List.append_inj' hfront rfl
    rw [(List.cons.inj hcurrent).1]
    exact iff_of_true hrest rfl
  · rw [hrest, List.concat_eq_append, ← List.cons_append, ← List.append_assoc] at hfront
    obtain ⟨hbefore, -⟩ := List.append_inj' hfront rfl
    refine iff_of_false (by simp [hrest]) (hinit c.current ?_)
    rw [← hbefore]
    simp

/-- A cursor keeps its end any number of tokens further. -/
theorem Cursor.Ended.iterate {c : Cursor} (h : c.Ended) (n : ℕ) : (Parse.step^[n] c).Ended := by
  induction n generalizing c with
  | zero => exact h
  | succ n ih => exact ih h.step

namespace Parse

/-- What is left after some tokens is what was left, without them. -/
theorem rest_iterate (n : ℕ) (c : Cursor) : (step^[n] c).rest = c.rest.drop n := by
  induction n generalizing c with
  | zero => rfl
  | succ n ih =>
      rw [Function.iterate_succ_apply, ih]
      obtain ⟨current, rest, line⟩ := c
      cases rest with
      | nil => rw [step, List.drop_nil, List.drop_nil]
      | cons t ts => rfl

variable {α β : Type} {m : Parse α} {p : TokenKind → Prop} {Q R : α → ℕ → Prop}

/-- Where the kind of the current token satisfies `p`, the reader moves on token
by token, never beyond the last one, and the values that it returns satisfy `Q`
together with the number of tokens that were consumed. -/
def Takes (p : TokenKind → Prop) (m : Parse α) (Q : α → ℕ → Prop) : Prop :=
  ∀ c a c', c.Ended → p c.current.kind → m.run c = .ok (a, c') →
    ∃ n, n ≤ c.rest.length ∧ c' = step^[n] c ∧ Q a n

namespace Takes

/-- The postcondition of a reader may be weakened. -/
theorem mono (h : Takes p m Q) (hQ : ∀ a n, Q a n → R a n) : Takes p m R := by
  intro c a c' hended hp hrun
  obtain ⟨n, hle, hmove, hq⟩ := h c a c' hended hp hrun
  exact ⟨n, hle, hmove, hQ a n hq⟩

/-- A statement about every place is one about the places with a certain kind of
token. -/
theorem anywhere (h : Takes (fun _ => True) m Q) : Takes p m Q :=
  fun c a c' hended _ hrun => h c a c' hended trivial hrun

/-- A value is returned with no token consumed. -/
theorem pure {a : α} (h : Q a 0) : Takes p (pure a) Q := by
  intro c b c' hended _ hrun
  cases hrun
  exact ⟨0, Nat.zero_le _, rfl, h⟩

/-- **One reader after another.**  The second one starts where the first one
left off, and its tokens are counted on top. -/
theorem bind {f : α → Parse β} {Q : β → ℕ → Prop}
    (h : Takes p m fun a n => Takes (fun _ => True) (f a) fun b k => Q b (n + k)) :
    Takes p (m >>= f) Q := by
  intro c b c'' hended hp hrun
  rw [StateT.run_bind] at hrun
  cases hfirst : m.run c with
  -- an error of the first one is one of both
  | error e =>
      rw [hfirst] at hrun
      cases hrun
  | ok result =>
      rw [hfirst] at hrun
      -- the tokens of the first one, then those of the second one from there on
      obtain ⟨n, hle, hmove, hrest⟩ := h c result.1 result.2 hended hp hfirst
      obtain ⟨k, hle', hmove', hQ⟩ :=
        hrest result.2 b c'' (hmove ▸ hended.iterate n) trivial hrun
      rw [hmove, rest_iterate, List.length_drop] at hle'
      refine ⟨n + k, by omega, ?_, hQ⟩
      rw [hmove', hmove, Nat.add_comm, Function.iterate_add_apply]

/-- A value is changed after the fact; what is said of the new one is said of
the old one. -/
theorem map {f : α → β} {Q : β → ℕ → Prop} (h : Takes p m fun a n => Q (f a) n) :
    Takes p (f <$> m) Q := by
  rw [map_eq_pure_bind]
  exact .bind (h.mono fun a n hq => .pure hq)

/-- Looking at the current token tells its kind. -/
theorem peek_bind {f : Token → Parse β} {Q : β → ℕ → Prop}
    (h : ∀ t : Token, p t.kind → Takes (· = t.kind) (f t) Q) : Takes p (peek >>= f) Q :=
  fun c b c' hended hp hrun => h c.current hp c b c' hended rfl hrun

theorem kind_bind {f : TokenKind → Parse β} {Q : β → ℕ → Prop}
    (h : ∀ k, p k → Takes (· = k) (f k) Q) : Takes p (kind >>= f) Q :=
  fun c b c' hended hp hrun => h c.current.kind hp c b c' hended rfl hrun

/-- Counting the tokens consumes none. -/
theorem remaining_bind {f : ℕ → Parse β} {Q : β → ℕ → Prop} (h : ∀ n, Takes p (f n) Q) :
    Takes p (remaining >>= f) Q :=
  fun c b c' hended hp hrun => h (c.rest.length + 1) c b c' hended hp hrun

theorem peekNext_bind {f : Token → Parse β} {Q : β → ℕ → Prop} (h : ∀ t, Takes p (f t) Q) :
    Takes p (peekNext >>= f) Q :=
  fun c b c' hended hp hrun => h (c.rest.headD c.current) c b c' hended hp hrun

theorem spanFrom_bind {line : ℕ} {f : LineSpan → Parse β} {Q : β → ℕ → Prop}
    (h : ∀ l, Takes p (f l) Q) : Takes p (spanFrom line >>= f) Q :=
  fun c b c' hended hp hrun => h (.of line c.previousLine) c b c' hended hp hrun

/-- A decision, each way of which may use the condition. -/
theorem ite {b : Prop} [Decidable b] {m' : Parse α} (hm : b → Takes p m Q)
    (hm' : ¬b → Takes p m' Q) : Takes p (if b then m else m') Q := by
  split
  · next hb => exact hm hb
  · next hb => exact hm' hb

/-- A failure returns nothing of which something could be said. -/
theorem fail (cause : Token → SyntaxError.Cause) : Takes p (Parse.fail cause) Q := by
  intro c a c' _ _ hrun
  cases hrun

/-- An error with a cause of its own gives no value. -/
theorem throw (e : SyntaxError) : Takes p (throw e) Q := by
  intro c a c' _ _ hrun
  cases hrun

theorem unexpected (what : String) : Takes p (Parse.unexpected what) Q :=
  fail _

end Takes

/-! ## Single tokens

Whether a reader consumes the current token depends on its kind, as the mark of
the end stays where it is.  So these lemmas have the kind as a hypothesis. -/

/-- A token that is not the mark of the end is consumed. -/
theorem takes_advance (hp : ∀ k, p k → k ≠ .endOfInput) : Takes p advance fun _ n => n = 1 := by
  intro c a c' hended hkind hrun
  cases hrun
  obtain ⟨current, rest, line⟩ := c
  cases rest with
  | nil => exact absurd (hended current rfl) (hp _ hkind)
  | cons t ts => exact ⟨1, Nat.succ_pos _, rfl, rfl⟩

/-- At the end the cursor stays where it is. -/
theorem takes_advance_any : Takes p advance fun _ _ => True := by
  intro c a c' hended _ hrun
  cases hrun
  obtain ⟨current, rest, line⟩ := c
  cases rest with
  | nil => exact ⟨0, Nat.zero_le _, rfl, trivial⟩
  | cons t ts => exact ⟨1, Nat.succ_pos _, rfl, trivial⟩

/-- After a consumed token one more is counted. -/
theorem Takes.advance_bind {k : TokenKind} {f : Token → Parse β} {Q : β → ℕ → Prop}
    (hk : k ≠ .endOfInput) (h : ∀ t, Takes (fun _ => True) (f t) fun b n => Q b (1 + n)) :
    Takes (· = k) (advance >>= f) Q := by
  have hadvance : Takes (· = k) advance fun _ n => n = 1 :=
    takes_advance fun j hj => by rwa [hj]
  refine .bind (hadvance.mono fun t n hn => ?_)
  rw [hn]
  exact h t

/-- What begins with a token of its own consumes one. -/
theorem Takes.advance_bind_pos {k : TokenKind} {f : Token → Parse β} {Q : β → ℕ → Prop}
    (hk : k ≠ .endOfInput) (h : ∀ t, Takes (fun _ => True) (f t) fun b n => Q b (1 + n)) :
    Takes (· = k) (advance >>= f) fun b n => Q b n ∧ 0 < n :=
  .advance_bind hk fun t => (h t).mono fun _ _ hq => ⟨hq, by omega⟩

/-- An accepted token is consumed, and one that is not accepted is not. -/
theorem takes_accept {k : TokenKind} (hk : k ≠ .endOfInput) :
    Takes p (accept k) fun taken n => n = if taken then 1 else 0 := by
  rw [accept]
  refine .kind_bind fun k' _ => .ite (fun heq => ?_) fun _ => .pure rfl
  exact .advance_bind (heq ▸ hk) fun _ => .pure rfl

/-- An expected token is consumed. -/
theorem takes_expect {k : TokenKind} (hk : k ≠ .endOfInput) (what : String) :
    Takes p (expect k what) fun _ n => n = 1 := by
  rw [expect]
  refine .kind_bind fun k' _ => .ite (fun heq => ?_) fun _ => .unexpected what
  exact takes_advance fun j hj => by rwa [hj, heq]

/-- The reader of a name takes one token. -/
theorem takes_identifier (what : String) : Takes p (identifier what) fun _ n => n = 1 := by
  rw [identifier]
  exact .bind ((takes_expect (by decide) what).mono fun _ n hn => .pure hn)

/-! ## Lists -/

section Lists

variable {μ : α → ℕ} {item : Parse α} (hitem : Takes (fun _ => True) item fun a n => μ a ≤ n)
include hitem

/-- What the items of a list take adds up. -/
theorem takes_commaList (fuel : ℕ) :
    Takes p (commaList item fuel) fun as n => (as.map μ).sum ≤ n := by
  induction fuel generalizing p with
  | zero => exact .pure (Nat.le_refl 0)
  | succ fuel ih =>
      rw [commaList]
      refine .bind (hitem.anywhere.mono fun a n ha => ?_)
      refine .bind ((takes_accept (by decide)).mono fun taken _ _ => .ite (fun _ => ?_) fun _ => ?_)
      · refine .bind (ih.mono fun as k has => .pure ?_)
        rw [List.map_cons, List.sum_cons]
        omega
      · refine .pure ?_
        rw [List.map_cons, List.sum_cons, List.map_nil, List.sum_nil]
        omega

/-- A list up to its closing bracket, with or without items. -/
theorem takes_listUntil {close : TokenKind} (hclose : close ≠ .endOfInput) (what : String) :
    Takes p (listUntil close what item) fun as n => (as.map μ).sum ≤ n := by
  have hrest : ∀ (as : List α) n, (as.map μ).sum ≤ n → Takes (fun _ => True) (do
      let _ ← expect close what
      return as) fun as k => (as.map μ).sum ≤ n + k := by
    intro as n has
    exact .bind ((takes_expect hclose what).mono fun _ k _ => .pure (has.trans (by omega)))
  rw [listUntil]
  refine .kind_bind fun k _ => .ite (fun _ => ?_) fun _ => .remaining_bind fun fuel => ?_
  · exact .bind (.pure (hrest [] 0 (Nat.le_refl 0)))
  · exact .bind ((takes_commaList hitem fuel).mono hrest)

end Lists

/-! ## Expressions

Whatever is read as an expression has no more operations than tokens.  The
levels of the grammar refer to one another, so the lemmas take what holds of the
next level as a hypothesis, and the level that closes the circle is reached with
one token less. -/

/-- The expression has at most as many operations as tokens were consumed for
it. -/
def Counted (e : Expr) (n : ℕ) : Prop :=
  e.operations ≤ n

/-- The same for a list of expressions. -/
def AllCounted (es : List Expr) (n : ℕ) : Prop :=
  (es.map Expr.operations).sum ≤ n

variable {expression : Parse Expr} (hexpression : Takes (fun _ => True) expression Counted)
include hexpression

/-- Arguments are a list of expressions in brackets. -/
theorem takes_arguments : Takes p (arguments expression) AllCounted := by
  rw [arguments]
  refine .bind ((takes_expect (by decide) _).mono fun _ n _ => ?_)
  exact (takes_listUntil hexpression (by decide) _).mono fun es k hes => hes.trans (by omega)

/-- What is enclosed has the tokens around it on top. -/
theorem takes_enclosed {close : TokenKind} (hclose : close ≠ .endOfInput) (what : String) :
    Takes p (enclosed expression close what) Counted := by
  rw [enclosed]
  refine .bind (hexpression.anywhere.mono fun e n he => ?_)
  exact .bind ((takes_expect hclose what).mono fun _ k _ => .pure (he.trans (by omega)))

omit hexpression in
/-- A dotted name has no operations. -/
theorem takes_dotted (fuel : ℕ) (name : String) : Takes p (dotted fuel name) fun _ _ => True := by
  induction fuel generalizing name p with
  | zero => exact .pure trivial
  | succ fuel ih =>
      rw [dotted]
      refine .kind_bind fun k _ => .peekNext_bind fun t => .ite (fun _ => ?_) fun _ => .pure trivial
      refine .bind (takes_advance_any.mono fun _ _ _ => ?_)
      exact .bind (takes_advance_any.mono fun field _ _ => ih _)

/-- **The innermost reader of expressions** consumes a token, and with it what
is read behind it.  In a call the operation of the call is paid by its word; in
brackets and marks of rounding the tokens around pay for whatever stands
there. -/
theorem takes_primary : Takes p (primary expression) fun e n => Counted e n ∧ 0 < n := by
  rw [primary]
  refine .peek_bind fun t _ => ?_
  -- a number, four kinds of tokens that stand for themselves, and what has
  -- parts
  split
  · next hkind =>
    refine .advance_bind_pos (hkind ▸ by decide) fun _ => ?_
    split
    · exact .pure (Nat.zero_le _)
    · exact .throw _
  · next hkind => exact .advance_bind_pos (hkind ▸ by decide) fun _ => .pure (Nat.zero_le _)
  · next hkind => exact .advance_bind_pos (hkind ▸ by decide) fun _ => .pure (Nat.zero_le _)
  · next hkind => exact .advance_bind_pos (hkind ▸ by decide) fun _ => .pure (Nat.zero_le _)
  · next hkind => exact .advance_bind_pos (hkind ▸ by decide) fun _ => .pure (Nat.zero_le _)
  · next hkind =>
    refine .advance_bind_pos (hkind ▸ by decide) fun _ => ?_
    exact (takes_enclosed hexpression (by decide) _).mono fun e n he => he.trans (by omega)
  · next hkind =>
    refine .advance_bind_pos (hkind ▸ by decide) fun _ => ?_
    refine .bind ((takes_listUntil hexpression (by decide) _).mono fun es n hes => .pure ?_)
    simp only [Counted, Expr.operations, Expr.operationsAll_eq_sum]
    omega
  · next hkind =>
    refine .advance_bind_pos (hkind ▸ by decide) fun _ => ?_
    refine .bind ((takes_enclosed hexpression (by decide) _).mono fun e n he => .pure ?_)
    simp only [Counted, Expr.operations, Expr.operationsAll] at *
    omega
  · next hkind =>
    refine .advance_bind_pos (hkind ▸ by decide) fun _ => ?_
    refine .bind ((takes_enclosed hexpression (by decide) _).mono fun e n he => .pure ?_)
    simp only [Counted, Expr.operations, Expr.operationsAll] at *
    omega
  · next hkind =>
    refine .advance_bind_pos (hkind ▸ by decide) fun _ => ?_
    refine .bind ((takes_identifier _).mono fun name _ _ => ?_)
    refine .bind ((takes_arguments hexpression).mono fun es n hes => .pure ?_)
    simp only [Counted, AllCounted, Expr.operations, Expr.operationsAll_eq_sum] at *
    omega
  · next hkind =>
    refine .advance_bind_pos (hkind ▸ by decide) fun _ => ?_
    refine .kind_bind fun k _ => .ite (fun _ => ?_) fun _ => ?_
    · refine .bind ((takes_arguments hexpression).mono fun es n hes => .pure ?_)
      simp only [Counted, AllCounted, Expr.operations, Expr.operationsAll_eq_sum] at *
      omega
    · refine .remaining_bind fun fuel => ?_
      exact .bind ((takes_dotted fuel _).mono fun name _ _ => .pure (Nat.zero_le _))
  · exact .unexpected _

/-- Each pair of brackets pays for what is in it.  The induction is on the fuel,
with what was read before carried along as `k` tokens. -/
theorem takes_indexed (fuel : ℕ) {e : Expr} {k : ℕ} (he : Counted e k) :
    Takes p (indexed expression fuel e) fun e n => Counted e (k + n) := by
  induction fuel generalizing p e k with
  | zero => exact .pure he
  | succ fuel ih =>
      rw [indexed]
      refine .bind ((takes_accept (by decide)).mono fun taken _ _ => .ite (fun _ => ?_) fun _ => ?_)
      · refine .remaining_bind fun m => ?_
        refine .bind ((takes_commaList hexpression m).mono fun es n hes => ?_)
        refine .bind ((takes_expect (by decide) _).mono fun _ j _ => ?_)
        have hindices : Counted (es.foldl .index e) (k + n) := by
          rw [Counted, Expr.operations_foldl_index]
          exact Nat.add_le_add he hes
        exact (ih hindices).mono fun e i hi => hi.trans (by omega)
      · exact .pure (he.trans (by omega))

omit hexpression in
/-- A sign pays for its operation, and folding a sign into a number only saves
one. -/
theorem counted_negative {e : Expr} {n : ℕ} (he : Counted e n) : Counted (negative e) (1 + n) := by
  unfold negative
  split
  · exact Nat.zero_le _
  · exact Nat.zero_le _
  · exact Nat.add_le_add_left he 1

omit hexpression in
/-- An operator pays for itself, whatever expression it builds. -/
theorem counted_build (rule : InfixRule) {left right : Expr} {n k : ℕ} (hleft : Counted left n)
    (hright : Counted right k) : Counted (rule.build left right) (n + (1 + k)) := by
  have hsum : 1 + left.operations + right.operations ≤ n + (1 + k) := by
    simp only [Counted] at hleft hright
    omega
  rw [InfixRule.build]
  split
  · exact hsum
  · exact hsum

omit hexpression

variable {binary : ℕ → Parse Expr}
  (hbinary : ∀ least, Takes (fun _ => True) (binary least) Counted)
include hbinary

/-- An operand with a sign, or a primary with its indices. -/
theorem takes_operand : Takes p (operand binary) fun e n => Counted e n ∧ 0 < n := by
  rw [operand]
  refine .kind_bind fun k _ => ?_
  split
  · refine .advance_bind_pos (by decide) fun _ => ?_
    exact .bind ((hbinary _).mono fun e n he => .pure (counted_negative he))
  · refine .advance_bind_pos (by decide) fun _ => ?_
    exact .bind ((hbinary _).mono fun e n he => .pure (Nat.add_le_add_left he 1))
  · refine .bind ((takes_primary (hbinary _)).mono fun e n he => .remaining_bind fun fuel => ?_)
    exact (takes_indexed (hbinary _) fuel he.1).mono fun e k he' => ⟨he', by omega⟩

omit hbinary in
/-- To refuse a chain of comparisons consumes nothing. -/
theorem takes_refuseChain (rule : InfixRule) : Takes p (refuseChain rule) fun _ _ => True := by
  rw [refuseChain]
  refine .ite (fun _ => .kind_bind fun k _ => ?_) fun _ => .pure trivial
  split
  · exact .ite (fun _ => .fail _) fun _ => .pure trivial
  · exact .pure trivial

/-- The operators of a level, one after the other; what was read to the left is
carried along. -/
theorem takes_climb (least fuel : ℕ) {e : Expr} {k : ℕ} (he : Counted e k) :
    Takes p (climb binary least fuel e) fun e n => Counted e (k + n) := by
  induction fuel generalizing p e k with
  | zero => exact .pure he
  | succ fuel ih =>
      rw [climb]
      refine .kind_bind fun kind _ => ?_
      split
      · exact .pure he
      · next rule hrule =>
        refine .ite (fun _ => .pure he) fun _ => ?_
        have hkind : kind ≠ .endOfInput := by
          rintro rfl
          cases hrule
        refine .advance_bind hkind fun _ => ?_
        refine .bind ((hbinary _).mono fun right n hright => ?_)
        refine .bind ((takes_refuseChain rule).mono fun _ j _ => ?_)
        exact (ih (counted_build rule he hright)).mono fun e i hi => hi.trans (by omega)

omit hbinary

/-- All levels, by induction on how deep they are nested. -/
theorem takes_binary (depth least : ℕ) :
    Takes (fun _ => True) (Parse.binary depth least) fun e n => Counted e n ∧ 0 < n := by
  induction depth generalizing least with
  | zero => exact .unexpected _
  | succ depth ih =>
      have hbinary := fun least => (ih least).mono fun _ _ he => he.1
      rw [Parse.binary]
      refine .bind ((takes_operand hbinary).mono fun left n hleft => .remaining_bind fun fuel => ?_)
      exact (takes_climb hbinary least fuel hleft.1).mono fun e k he => ⟨he, by omega⟩

/-- An expression has a token at least. -/
theorem takes_expression_pos : Takes p Parse.expression fun e n => Counted e n ∧ 0 < n := by
  rw [Parse.expression]
  exact .remaining_bind fun depth => (takes_binary depth _).anywhere

theorem takes_expression : Takes p Parse.expression Counted :=
  takes_expression_pos.mono fun _ _ he => he.1

/-! ## Statements

Blocks are read by loops, and the operations of a block are not what counts:
every statement is compared with the tokens of its own.  A bound for a block is
one for each statement in it, at any depth (`Parse.AllSpanned`). -/

/-- The statement and all statements in it have at most one operation more than
tokens were consumed. -/
def Spanned (st : Stmt) (n : ℕ) : Prop :=
  ∀ t ∈ Stmt.preorder st, t.operations ≤ n + 1

/-- The same for a block. -/
def AllSpanned (body : Block) (n : ℕ) : Prop :=
  ∀ t ∈ Stmt.preorderAll body, t.operations ≤ n + 1

/-- An empty block has no statements to speak of. -/
theorem AllSpanned.nil {n : ℕ} : AllSpanned [] n := by
  intro t ht
  cases ht

theorem AllSpanned.mono {body : Block} {n k : ℕ} (h : AllSpanned body n) (hle : n ≤ k) :
    AllSpanned body k :=
  fun t ht => (h t ht).trans (by omega)

/-- A statement in front of a block has tokens of its own. -/
theorem AllSpanned.cons {st : Stmt} {sts : Block} {n k : ℕ} (hst : Spanned st n)
    (hsts : AllSpanned sts k) : AllSpanned (st :: sts) (n + k) := by
  intro t ht
  rcases List.mem_append.mp ht with ht | ht
  · exact (hst t ht).trans (by omega)
  · exact (hsts t ht).trans (by omega)

theorem Spanned.mono {st : Stmt} {n k : ℕ} (h : Spanned st n) (hle : n ≤ k) : Spanned st k :=
  fun t ht => (h t ht).trans (by omega)

/-- A statement is looked at by itself and block by block. -/
theorem Spanned.of_blocks {st : Stmt} {n : ℕ} (hown : st.operations ≤ n + 1)
    (hblocks : ∀ body ∈ st.blocks, AllSpanned body n) : Spanned st n := by
  intro t ht
  rcases Stmt.mem_preorder.mp ht with rfl | ⟨body, hbody, ht⟩
  · exact hown
  · exact hblocks body hbody t ht

theorem Spanned.of_own {st : Stmt} {n : ℕ} (hblocks : st.blocks = [])
    (hown : st.operations ≤ n + 1) : Spanned st n :=
  .of_blocks hown (by simp [hblocks])

/-- Semicolons carry no operations. -/
theorem takes_skipSemicolons (fuel : ℕ) : Takes p (skipSemicolons fuel) fun _ _ => True := by
  induction fuel generalizing p with
  | zero => exact .pure trivial
  | succ fuel ih =>
      rw [skipSemicolons]
      refine .bind ((takes_accept (by decide)).mono fun taken _ _ => .ite (fun _ => ?_) fun _ => ?_)
      · exact ih
      · exact .pure trivial

/-- The words of an action line are taken one by one, and no operation is
counted in them. -/
theorem takes_lineWords (line fuel : ℕ) : Takes p (lineWords line fuel) fun _ _ => True := by
  induction fuel generalizing p with
  | zero => exact .pure trivial
  | succ fuel ih =>
      rw [lineWords]
      refine .peek_bind fun t _ => .ite (fun _ => .pure trivial) fun _ => ?_
      refine .bind (takes_advance_any.mono fun t _ _ => ?_)
      exact .bind (ih.mono fun words _ _ => .pure trivial)

variable {statement : Parse Stmt} (hstatement : Takes (fun _ => True) statement Spanned)
include hstatement

/-- The statements of a block, each paid by its own tokens. -/
theorem takes_statementsUntil (close : TokenKind) (fuel : ℕ) :
    Takes p (statementsUntil statement close fuel) AllSpanned := by
  induction fuel generalizing p with
  | zero => exact .pure .nil
  | succ fuel ih =>
      rw [statementsUntil]
      refine .remaining_bind fun m => .bind ((takes_skipSemicolons m).mono fun _ _ _ => ?_)
      refine .kind_bind fun k _ => .ite (fun _ => .pure .nil) fun _ => ?_
      refine .ite (fun _ => .fail _) fun _ => ?_
      refine .bind (hstatement.anywhere.mono fun st n hst => ?_)
      exact .bind (ih.mono fun sts k hsts => .pure ((AllSpanned.cons hst hsts).mono (by omega)))

/-- A block with the words around it. -/
theorem takes_block : Takes p (block statement) AllSpanned := by
  rw [block]
  refine .bind ((takes_expect (by decide) _).mono fun _ _ _ => .remaining_bind fun m => ?_)
  refine .bind ((takes_statementsUntil hstatement _ m).mono fun body n hbody => ?_)
  exact .bind ((takes_expect (by decide) _).mono fun _ _ _ => .pure (hbody.mono (by omega)))

/-- A counting loop: the operations of its bounds are not counted, and those of
its body are paid there. -/
theorem takes_forStatement (line : ℕ) : Takes p (forStatement statement line) Spanned := by
  rw [forStatement]
  refine .bind ((takes_identifier _).mono fun name _ _ => ?_)
  refine .bind ((takes_expect (by decide) _).mono fun _ _ _ => ?_)
  refine .bind (takes_expression.mono fun first _ _ => ?_)
  refine .bind ((takes_accept (by decide)).mono fun descending _ _ => ?_)
  -- a counting loop has no operations of its own, so only its block is left to
  -- look at
  have hrest : ∀ i, Takes (fun _ => True) (do
      let second ← Parse.expression
      let _ ← expect .doWord "'do'"
      let body ← block statement
      let lines ← spanFrom line
      return if descending then .forLoop lines name second first body
        else .forLoop lines name first second body) fun st n => Spanned st (i + n) := by
    intro i
    refine .bind (takes_expression.mono fun second _ _ => ?_)
    refine .bind ((takes_expect (by decide) _).mono fun _ _ _ => ?_)
    refine .bind ((takes_block hstatement).mono fun body n hbody => ?_)
    refine .spanFrom_bind fun l => .pure ?_
    split
    · exact .of_blocks (Nat.zero_le _) (by simpa [Stmt.blocks] using hbody.mono (by omega))
    · exact .of_blocks (Nat.zero_le _) (by simpa [Stmt.blocks] using hbody.mono (by omega))
  refine .ite (fun _ => ?_) fun _ => ?_
  · refine .bind ((takes_expect (by decide) _).mono fun _ k _ => ?_)
    exact (hrest k).mono fun st n hst => hst.mono (by omega)
  · exact (hrest 0).mono fun st n hst => hst.mono (by omega)

/-- A loop with its condition at the front. -/
theorem takes_whileStatement (line : ℕ) : Takes p (whileStatement statement line) Spanned := by
  rw [whileStatement]
  refine .bind (takes_expression.mono fun cond n hcond => ?_)
  refine .bind ((takes_expect (by decide) _).mono fun _ _ _ => ?_)
  refine .bind ((takes_block hstatement).mono fun body k hbody => .spanFrom_bind fun l => .pure ?_)
  refine .of_blocks (hcond.trans (by omega)) ?_
  simpa [Stmt.blocks] using hbody.mono (by omega)

/-- A loop with its condition at the end, the negation of which is one operation
more and is paid by the word before it. -/
theorem takes_repeatStatement (line : ℕ) : Takes p (repeatStatement statement line) Spanned := by
  have hrest : ∀ body k, AllSpanned body k → Takes (fun _ => True) (do
      let _ ← expect .untilWord "'until'"
      let cond ← Parse.expression
      return .whileLoop (← spanFrom line) (.unary .not cond) body)
      fun st n => Spanned st (k + n) := by
    intro body k hbody
    refine .bind ((takes_expect (by decide) _).mono fun _ _ _ => ?_)
    refine .bind (takes_expression.mono fun cond n hcond => .spanFrom_bind fun l => .pure ?_)
    have hown : (Expr.unary .not cond).operations ≤ 1 + n := Nat.add_le_add_left hcond 1
    refine .of_blocks (hown.trans (by omega)) ?_
    simpa [Stmt.blocks] using hbody.mono (by omega)
  rw [repeatStatement]
  refine .kind_bind fun k _ => .ite (fun _ => ?_) fun _ => .remaining_bind fun m => ?_
  · exact .bind ((takes_block hstatement).mono hrest)
  · exact .bind ((takes_statementsUntil hstatement _ m).mono hrest)

/-- The arm for a guard that fails is a block or another branch. -/
theorem takes_elseArm :
    Takes p (elseArm statement) fun no n => ∀ body ∈ no, AllSpanned body n := by
  rw [elseArm]
  refine .bind ((takes_accept (by decide)).mono fun _ _ _ => .ite (fun _ => ?_) fun _ => ?_)
  · refine .kind_bind fun k _ => .ite (fun _ => ?_) fun _ => ?_
    -- a branch of its own, as in a chain of guards
    · refine .bind (hstatement.anywhere.mono fun st n hst => .pure ?_)
      simpa using (AllSpanned.cons hst (.nil (n := 0))).mono (by omega)
    · refine .bind ((takes_block hstatement).mono fun body n hbody => .pure ?_)
      simpa using hbody.mono (by omega)
  · exact .pure (by simp)

/-- A branch: its guard, and both arms with their own tokens. -/
theorem takes_ifStatement (line : ℕ) : Takes p (ifStatement statement line) Spanned := by
  rw [ifStatement]
  refine .bind (takes_expression.mono fun cond n hcond => ?_)
  refine .bind ((takes_expect (by decide) _).mono fun _ _ _ => ?_)
  refine .bind ((takes_block hstatement).mono fun yes k hyes => ?_)
  refine .bind ((takes_elseArm hstatement).mono fun no j hno => .spanFrom_bind fun l => .pure ?_)
  refine .of_blocks (hcond.trans (by omega)) ?_
  cases no with
  | none => simpa [Stmt.blocks] using hyes.mono (by omega)
  | some no => simpa [Stmt.blocks] using ⟨hyes.mono (by omega), (hno no rfl).mono (by omega)⟩

omit hstatement

/-- The operations of a value that is returned are not counted, so that one is
enough. -/
theorem takes_returnStatement (line : ℕ) : Takes p (returnStatement line) Spanned := by
  have hrest : ∀ (value : Option Expr) k, Takes (fun _ => True) (do
      return .returns (← spanFrom line) value) fun st n => Spanned st (k + n) :=
    fun value k => .spanFrom_bind fun l => .pure (.of_own rfl (Nat.le_add_left 1 _))
  rw [returnStatement]
  refine .peek_bind fun next _ => .ite (fun _ => ?_) fun _ => ?_
  · refine .bind ?_
    exact .map (takes_expression.mono fun e k _ => hrest _ k)
  · exact .bind (.pure (hrest none 0))

/-- A call pays for its arguments and is itself the one operation more. -/
theorem takes_callStatement (line : ℕ) : Takes p (callStatement line) Spanned := by
  rw [callStatement]
  refine .bind ((takes_identifier _).mono fun name _ _ => ?_)
  refine .bind ((takes_arguments takes_expression).mono fun args n hargs => ?_)
  refine .spanFrom_bind fun l => .pure (.of_own rfl ?_)
  simp only [AllCounted, Stmt.operations] at *
  omega

/-- A declaration has one operation. -/
theorem takes_declaration (line : ℕ) : Takes p (declaration line) Spanned := by
  have hname : Takes (fun _ => True) (identifier "variable name") fun _ n => 0 ≤ n :=
    (takes_identifier _).mono fun _ _ _ => Nat.zero_le _
  rw [declaration]
  refine .remaining_bind fun fuel => .bind ((takes_commaList hname fuel).mono fun names _ _ => ?_)
  exact .spanFrom_bind fun l => .pure (.of_own rfl (Nat.le_add_left 1 _))

/-- An action line has one operation.  An assignment has those of its value, and
itself as the one more. -/
theorem takes_simpleStatement (line : ℕ) : Takes p (simpleStatement line) Spanned := by
  have haction : Takes (fun _ => True) isActionLine fun _ _ => True := by
    rw [isActionLine]
    exact .peek_bind fun _ _ => .peekNext_bind fun _ => .pure trivial
  rw [simpleStatement]
  refine .bind (haction.anywhere.mono fun _ _ _ => .ite (fun _ => ?_) fun _ => ?_)
  · refine .remaining_bind fun fuel => .bind ((takes_lineWords line fuel).mono fun words _ _ => ?_)
    exact .spanFrom_bind fun l => .pure (.of_own rfl (Nat.le_add_left 1 _))
  · refine .bind (takes_expression.mono fun target n htarget => ?_)
    refine .bind ((takes_accept (by decide)).mono fun _ _ _ => .ite (fun _ => ?_) fun _ => ?_)
    -- what comes after the sign of the assignment
    · have hrest : ∀ k, Takes (fun _ => True) (do
          let value ← Parse.expression
          return .assign (← spanFrom line) target value) fun st n => Spanned st (k + n) := by
        intro k
        refine .bind (takes_expression.mono fun value n hvalue => ?_)
        refine .spanFrom_bind fun l => .pure (.of_own rfl ?_)
        simp only [Counted, Stmt.operations] at *
        omega
      refine .ite (fun _ => ?_) fun _ => (hrest 0).mono fun st n hst => hst.mono (by omega)
      exact .bind (.fail _)
    · refine .ite (fun _ => ?_) fun _ => .unexpected _
      exact .spanFrom_bind fun l => .pure (.of_own rfl (htarget.trans (by omega)))

/-- One level of statements. -/
theorem takes_statementOf (hstatement : Takes (fun _ => True) statement Spanned) :
    Takes p (statementOf statement) Spanned := by
  -- the word at the front is not needed for the bound
  have hadvance : ∀ {q : TokenKind → Prop} {m : Parse Stmt}, Takes (fun _ => True) m Spanned →
      Takes q (advance >>= fun _ => m) Spanned := fun hm =>
    .bind (takes_advance_any.mono fun _ _ _ => hm.mono fun st n hst => hst.mono (by omega))
  rw [statementOf]
  refine .peek_bind fun t _ => ?_
  split
  · exact hadvance (takes_forStatement hstatement _)
  · exact hadvance (takes_whileStatement hstatement _)
  · exact hadvance (takes_repeatStatement hstatement _)
  · exact hadvance (takes_ifStatement hstatement _)
  · exact hadvance (takes_returnStatement _)
  · exact hadvance (takes_callStatement _)
  · exact hadvance (takes_declaration _)
  · exact takes_simpleStatement _
  · refine .ite (fun _ => ?_) fun _ => .unexpected _
    refine .bind (takes_expression.mono fun e n he => .spanFrom_bind fun l => .pure ?_)
    exact .of_own rfl (he.trans (by omega))

/-- Statements to any depth, by induction on the depth. -/
theorem takes_statement : Takes p Parse.statement Spanned := by
  have hdepth : ∀ depth, Takes (fun _ => True) (statementTo depth) Spanned := by
    intro depth
    induction depth with
    | zero => exact .unexpected _
    | succ depth ih => exact takes_statementOf ih
  exact .remaining_bind fun depth => (hdepth depth).anywhere

/-! ## Procedures -/

/-- The dimensions of an array carry no operations. -/
theorem takes_dimensions (fuel depth : ℕ) : Takes p (dimensions fuel depth) fun _ _ => True := by
  induction fuel generalizing depth p with
  | zero => exact .pure trivial
  | succ fuel ih =>
      cases depth with
      | zero => exact .pure trivial
      | succ depth =>
          rw [dimensions]
          refine .kind_bind fun k _ => ?_
          split
          · exact .bind (takes_advance_any.mono fun _ _ _ => ih _)
          · exact .bind (takes_advance_any.mono fun _ _ _ => ih _)
          · exact .fail _
          · exact .bind (takes_advance_any.mono fun _ _ _ => ih _)

/-- The brackets behind a parameter are taken one by one, and say only that it
is an array. -/
theorem takes_arrayMarks (fuel : ℕ) (isArray : Bool) :
    Takes p (arrayMarks fuel isArray) fun _ _ => True := by
  induction fuel generalizing isArray p with
  | zero => exact .pure trivial
  | succ fuel ih =>
      rw [arrayMarks]
      refine .bind ((takes_accept (by decide)).mono fun _ _ _ => .ite (fun _ => ?_) fun _ => ?_)
      · refine .remaining_bind fun m => .bind ((takes_dimensions m 1).mono fun _ _ _ => ?_)
        exact ih true
      · exact .pure trivial

/-- A parameter is a name with brackets behind it, in which no operation is
counted. -/
theorem takes_parameter : Takes p parameter fun _ n => 0 ≤ n := by
  rw [parameter]
  refine .bind ((takes_identifier _).mono fun name _ _ => .remaining_bind fun fuel => ?_)
  exact .bind ((takes_arrayMarks fuel false).mono fun _ _ _ => .pure (Nat.zero_le _))

/-- A procedure has the tokens of its body. -/
theorem takes_function : Takes p function fun f n => AllSpanned f.body n := by
  rw [function]
  refine .peek_bind fun t _ => .bind ((takes_accept (by decide)).mono fun _ _ _ => ?_)
  refine .bind ((takes_identifier _).mono fun name _ _ => ?_)
  refine .bind ((takes_expect (by decide) _).mono fun _ _ _ => ?_)
  refine .bind ((takes_listUntil takes_parameter (by decide) _).mono fun params _ _ => ?_)
  refine .bind ((takes_block takes_statement).mono fun body n hbody => ?_)
  exact .spanFrom_bind fun l => .pure (hbody.mono (by omega))

/-- Several procedures, each of which has its own tokens. -/
theorem takes_functions (fuel : ℕ) :
    Takes p (functions fuel) fun fs n => ∀ f ∈ fs, AllSpanned f.body n := by
  induction fuel generalizing p with
  | zero => exact .pure (by simp)
  | succ fuel ih =>
      rw [functions]
      refine .remaining_bind fun m => .bind ((takes_skipSemicolons m).mono fun _ _ _ => ?_)
      refine .kind_bind fun k _ => .ite (fun _ => .pure (by simp)) fun _ => ?_
      refine .bind (takes_function.mono fun f n hf => ?_)
      refine .bind (ih.mono fun fs k hfs => .pure ?_)
      intro g hg
      rcases List.mem_cons.mp hg with rfl | hg
      · exact hf.mono (by omega)
      · exact (hfs g hg).mono (by omega)

/-- All procedures of a program together. -/
theorem takes_program :
    Takes p program fun prog n => ∀ f ∈ prog.functions, AllSpanned f.body n := by
  rw [program]
  refine .remaining_bind fun m => .bind ((takes_functions m).mono fun fs n hfs => ?_)
  refine .ite (fun _ => .bind (.fail _)) fun _ => .pure fun f hf => (hfs f hf).mono (by omega)

end Parse

/-! ## Programs -/

/-- To drop the byte order mark makes a text shorter, if it does anything. -/
theorem length_stripMark_le (cs : List Char) : (stripMark cs).length ≤ cs.length := by
  unfold stripMark
  split
  · split
    · exact Nat.le_succ _
    · exact Nat.le_refl _
  · exact Nat.le_refl _

/-- A program that was read is what the reader of programs returned for the
tokens of the text. -/
theorem Program.exists_run_of_parse {source : String} {p : Program}
    (h : Program.parse source = .ok p) :
    ∃ t ts c, tokenize source = .ok (t :: ts) ∧ Parse.program.run ⟨t, ts, 1⟩ = .ok (p, c) := by
  rw [Program.parse] at h
  cases htokens : tokenize source with
  | error e =>
      rw [htokens] at h
      cases h
  | ok tokens =>
      rw [htokens] at h
      change Program.ofTokens tokens = .ok p at h
      cases tokens with
      | nil => cases h
      | cons t ts =>
          rw [Program.ofTokens] at h
          cases hrun : Parse.program.run ⟨t, ts, 1⟩ with
          | error e =>
              rw [hrun] at h
              cases h
          | ok result =>
              rw [hrun] at h
              cases h
              exact ⟨t, ts, result.2, rfl, hrun⟩

/-- **A statement of a program that was read has at most one operation more than
the text has characters.** -/
theorem Program.operations_le_of_parse {source : String} {p : Program}
    (h : Program.parse source = .ok p) :
    ∀ f ∈ p.functions, ∀ st ∈ Stmt.preorderAll f.body, st.operations ≤ source.length + 1 := by
  obtain ⟨t, ts, c, htokens, hrun⟩ := Program.exists_run_of_parse h
  obtain ⟨-, hended, hlength⟩ := Lexer.tokensFrom_ended htokens
  have hsize : ts.length ≤ source.length := by
    have hstrip := length_stripMark_le source.toList
    rw [String.length_toList] at hstrip
    rw [List.length_cons] at hlength
    omega
  obtain ⟨n, hn, -, hspanned⟩ :=
    Parse.takes_program (p := fun _ => True) ⟨t, ts, 1⟩ p c hended trivial hrun
  intro f hf st hst
  have hst := hspanned f hf st hst
  change n ≤ ts.length at hn
  omega

end CostAnalysis
