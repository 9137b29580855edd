import CostAnalysis.Proofs.Source.Rounds

/-!
# Every reader makes progress

The readers refer to each other and have loops in them, some of which consume
tokens only in what they call.  None of them goes back or beyond the mark of the
end, also where it fails; a procedure, a statement and an expression take a
token at least; and every loop ends (`Parse.advances_and_ends`).

**One lemma for a reader.**  A reader that is made from others does the same
with any two of them that are alike (`Parse.Alike`), and takes its tokens.  With
one reader for both this says that it makes progress.  With two ways in which a
loop may go on it is the step by which the loop ends.

**A token first.**  Only `Parse.primary`, `Parse.operand`, `Parse.indexed`,
`Parse.climb` and `Parse.statementOf` refer back to what they are part of, and
they do so with one token less.  So their lemmas have `size + 1` where those of
the others have `size`, and the levels of expressions and statements are rounds
like those of the loops.

**How the lemmas are named and ordered.**  For a loop there are three: what a
round of it is (`…Round`), that the loop is made of these rounds (`unrolls_…`),
and that rounds with alike continuations are alike (`alike_…Round`); the lemma
about the loop itself follows from them by `Parse.alike_loop`.  A reader without
a loop has one lemma, which follows its definition token by token.  The readers
come in the order in which they call each other: lists, expressions, statements,
procedures.

At the end the routines and the loops are listed once each (`Parse.Routine`,
`Parse.Loop`), so that the theorem speaks of all of them and not of those that
somebody thought of.
-/

namespace CostAnalysis.Parse

variable {α σ : Type} {p : Token → Prop} {size least : ℕ}

/-! ## Lists

A list goes on behind a separator or up to its closing bracket.  In both cases a
round takes a token, or it is the last one. -/

/-- One item of a list divided by commas. -/
def commaRound (item : Parse α) (next : Unit → Parse (List α)) : Unit → Parse (List α) :=
  fun _ => do
    let first ← item
    if ← accept .comma then return first :: (← next ()) else return [first]

theorem unrolls_commaList (item : Parse α) :
    Unrolls (fun n _ => commaList item n) (commaRound item) :=
  fun _ => rfl

/-- One semicolon. -/
def semicolonRound (next : Unit → Parse Unit) : Unit → Parse Unit :=
  fun _ => do
    if ← accept .semicolon then next ()

theorem unrolls_skipSemicolons : Unrolls (fun n _ => skipSemicolons n) semicolonRound :=
  fun _ => rfl

section Lists

variable {item item' : Parse α}

/-- A round takes what its item takes.  It goes on behind a comma, and so with
one token less. -/
theorem alike_commaRound {next next' : Unit → Parse (List α)} {n : ℕ}
    (hitem : Alike (fun _ => True) (n + 1) least item item')
    (hnext : ∀ s, Alike (fun _ => True) n least (next s) (next' s)) (s : Unit) :
    Alike (fun _ => True) (n + 1) least (commaRound item next s) (commaRound item' next' s) := by
  rw [commaRound, commaRound]
  refine .bind hitem fun first => .accept_ite (by decide) ?_ (.pure (by omega))
  exact .bind ((hnext ()).of_le (by omega)) fun rest => .pure (by omega)

/-- A list takes at least what its first item takes. -/
theorem alike_commaList {n : ℕ} (hitem : Alike (fun _ => True) size least item item')
    (hn : n ≤ size) : Alike p n least (commaList item n) (commaList item' n) :=
  alike_loop (unrolls_commaList item) (unrolls_commaList item')
    (fun _ hk _ _ hnext s => alike_commaRound (hitem.of_le hk) hnext s) hn ()

/-- A list in brackets takes its closing bracket, also where it has no items. -/
theorem alike_listUntil {close : TokenKind} (hclose : close ≠ .endOfInput) (what : String)
    (hitem : Alike (fun _ => True) size least item item') :
    Alike p size 1 (listUntil close what item) (listUntil close what item') := by
  rw [listUntil, listUntil]
  refine .kind_bind fun k => .ite (fun _ => ?_) fun _ => .remaining_bind fun n hn => ?_
  -- no item, and the bracket closes at once
  · refine .bind (.pure rfl) fun items => ?_
    exact .bind (alike_expect hclose what) fun _ => .pure rfl
  -- items, of which it does not matter how much they take, and the bracket
  · refine .bind ((alike_commaList hitem hn).mono (Nat.le_refl n) (Nat.zero_le _)) fun items => ?_
    exact .bind (alike_expect hclose what) fun _ => .pure rfl

end Lists

theorem alike_semicolonRound {next next' : Unit → Parse Unit} {n : ℕ}
    (hnext : ∀ s, Alike (fun _ => True) n 0 (next s) (next' s)) (s : Unit) :
    Alike (fun _ => True) (n + 1) 0 (semicolonRound next s) (semicolonRound next' s) :=
  .accept_ite (by decide) (hnext ()) (.pure rfl)

/-- There may be no semicolon at all. -/
theorem alike_skipSemicolons (n : ℕ) : Alike p n 0 (skipSemicolons n) (skipSemicolons n) :=
  alike_loop unrolls_skipSemicolons unrolls_skipSemicolons
    (fun _ _ _ _ => alike_semicolonRound) (Nat.le_refl n) ()

/-! ## Expressions -/

/-- One field after a point. -/
def fieldRound (next : String → Parse String) (name : String) : Parse String := do
  if (← kind) = .dot && (← peekNext).kind = .identifier then
    let _ ← advance
    let field ← advance
    next (name ++ "." ++ field.text)
  else return name

theorem unrolls_dotted : Unrolls dotted fieldRound :=
  fun _ => rfl

/-- One pair of brackets with indices. -/
def indexRound (expression : Parse Expr) (next : Expr → Parse Expr) (e : Expr) : Parse Expr := do
  if ← accept .leftBracket then
    let indices ← commaList expression (← remaining)
    let _ ← expect .rightBracket "']'"
    next (indices.foldl .index e)
  else return e

theorem unrolls_indexed (expression : Parse Expr) :
    Unrolls (indexed expression) (indexRound expression) :=
  fun _ => rfl

/-- One operator with its right operand. -/
def operatorRound (binary : ℕ → Parse Expr) (least : ℕ) (next : Expr → Parse Expr) (left : Expr) :
    Parse Expr := do
  match InfixRule.of? (← kind) with
  | none => return left
  | some rule =>
    if rule.precedence < least then return left
    else
      let _ ← advance
      let right ← binary rule.rightLevel
      refuseChain rule
      next (rule.build left right)

theorem unrolls_climb (binary : ℕ → Parse Expr) (least : ℕ) :
    Unrolls (climb binary least) (operatorRound binary least) :=
  fun _ => rfl

/-- One level of expressions. -/
def expressionRound (next : ℕ → Parse Expr) (least : ℕ) : Parse Expr := do
  let left ← operand next
  climb next least (← remaining) left

theorem unrolls_binary : Unrolls binary expressionRound :=
  fun _ => rfl

/-- A round goes on behind a point and a name. -/
theorem alike_fieldRound {next next' : String → Parse String} {n : ℕ}
    (hnext : ∀ s, Alike (fun _ => True) n 0 (next s) (next' s)) (name : String) :
    Alike (fun _ => True) (n + 1) 0 (fieldRound next name) (fieldRound next' name) := by
  rw [fieldRound, fieldRound]
  refine .kind_bind fun k => .peekNext_bind fun u => .ite (fun hdot => ?_) fun _ => .pure rfl
  -- the point is no mark of the end, and so it is consumed
  have hkind : ∀ t : Token, t.kind = k ∧ True → t.kind ≠ .endOfInput := by
    rintro t ⟨rfl, -⟩ hend
    simp [hend] at hdot
  refine .advance_bind hkind fun _ => ?_
  exact .bind advances_advance.alike fun field => hnext _

theorem alike_dotted (n : ℕ) (name : String) : Alike p n 0 (dotted n name) (dotted n name) :=
  alike_loop unrolls_dotted unrolls_dotted (fun _ _ _ _ => alike_fieldRound) (Nat.le_refl n) name

section Expressions

variable {expression expression' : Parse Expr}
  (hexpression : Alike (fun _ => True) size 1 expression expression')
include hexpression

/-- Arguments take their brackets. -/
theorem alike_arguments : Alike p size 1 (arguments expression) (arguments expression') := by
  rw [arguments, arguments]
  refine .bind (alike_expect (by decide) _) fun _ => ?_
  exact (alike_listUntil (by decide) _ hexpression).mono (by omega) (by omega)

/-- What is enclosed takes its closing mark; the opening one was taken
before. -/
theorem alike_enclosed {close : TokenKind} (hclose : close ≠ .endOfInput) (what : String) :
    Alike p size 1 (enclosed expression close what) (enclosed expression' close what) := by
  rw [enclosed, enclosed]
  refine .bind hexpression.anywhere fun inner => ?_
  exact .bind (alike_expect hclose what) fun _ => .pure rfl

/-- **The innermost reader of expressions.**  In each of its cases it consumes
the token that decides the case.  Where it refers back to expressions, in
brackets, in a list, in a call or between marks of rounding, it does so behind
that token, and so with one token less. -/
theorem alike_primary : Alike p (size + 1) 1 (primary expression) (primary expression') := by
  rw [primary, primary]
  refine .peek_bind fun t _ => ?_
  -- the token that decides the case is not the mark of the end
  have hstart : ∀ {k}, t.kind = k → k ≠ .endOfInput → ∀ u, u = t → u.kind ≠ .endOfInput := by
    rintro k hkind hk u rfl
    rwa [hkind]
  split
  · next hkind =>
    cases number? t.text.toList with
    | some v => exact .advance_bind (hstart hkind (by decide)) fun _ => .pure rfl
    | none =>
        -- the number is consumed, but the error names its place
        intro c hended hc hlt
        exact ⟨rfl, 0, Nat.zero_le _, by rw [← hc]; rfl⟩
  · next hkind => exact .advance_bind (hstart hkind (by decide)) fun _ => .pure rfl
  · next hkind => exact .advance_bind (hstart hkind (by decide)) fun _ => .pure rfl
  · next hkind => exact .advance_bind (hstart hkind (by decide)) fun _ => .pure rfl
  · next hkind => exact .advance_bind (hstart hkind (by decide)) fun _ => .pure rfl
  · next hkind =>
    refine .advance_bind (hstart hkind (by decide)) fun _ => ?_
    exact (alike_enclosed hexpression (by decide) _).mono (Nat.le_refl size) (Nat.zero_le _)
  · next hkind =>
    refine .advance_bind (hstart hkind (by decide)) fun _ => ?_
    exact .bind (alike_listUntil (by decide) _ hexpression) fun _ => .pure rfl
  · next hkind =>
    refine .advance_bind (hstart hkind (by decide)) fun _ => ?_
    exact .bind (alike_enclosed hexpression (by decide) _) fun _ => .pure rfl
  · next hkind =>
    refine .advance_bind (hstart hkind (by decide)) fun _ => ?_
    exact .bind (alike_enclosed hexpression (by decide) _) fun _ => .pure rfl
  · next hkind =>
    refine .advance_bind (hstart hkind (by decide)) fun _ => ?_
    refine .bind (alike_identifier _) fun name => ?_
    exact .bind ((alike_arguments hexpression).of_le (by omega)) fun _ => .pure rfl
  · next hkind =>
    refine .advance_bind (hstart hkind (by decide)) fun _ => ?_
    refine .kind_bind fun k => .ite (fun _ => ?_) fun _ => .remaining_bind fun n hn => ?_
    · exact .bind (alike_arguments hexpression) fun _ => .pure rfl
    · exact .bind (alike_dotted n _) fun _ => .pure rfl
  · exact .unexpected _

/-- A round goes on behind a pair of brackets, and the indices in them are read
with what is left.
-/
theorem alike_indexRound {next next' : Expr → Parse Expr} {n : ℕ} (hn : n ≤ size)
    (hnext : ∀ e, Alike (fun _ => True) n 0 (next e) (next' e)) (e : Expr) :
    Alike (fun _ => True) (n + 1) 0 (indexRound expression next e)
      (indexRound expression' next' e) := by
  rw [indexRound, indexRound]
  refine .accept_ite (by decide) (.remaining_bind fun k hk => ?_) (.pure rfl)
  refine .bind (alike_commaList hexpression (hk.trans hn)) fun indices => ?_
  refine .bind (alike_expect (by decide) _) fun _ => ?_
  exact (hnext _).mono (by omega) (by omega)

/-- Indices may be missing.  The expressions in them have fewer tokens before
them than the loop. -/
theorem alike_indexed {n : ℕ} (hn : n ≤ size + 1) (e : Expr) :
    Alike p n 0 (indexed expression n e) (indexed expression' n e) :=
  alike_loop (unrolls_indexed expression) (unrolls_indexed expression')
    (fun _ hk _ _ => alike_indexRound hexpression (Nat.le_of_lt_succ hk)) hn e

end Expressions

/-- To refuse a chain of comparisons is to look and perhaps to fail. -/
theorem alike_refuseChain (rule : InfixRule) :
    Alike p size 0 (refuseChain rule) (refuseChain rule) := by
  rw [refuseChain]
  refine .ite (fun _ => .kind_bind fun k => ?_) fun _ => .pure rfl
  split
  · exact .ite (fun _ => .fail _) fun _ => .pure rfl
  · exact .pure rfl

section Levels

variable {binary binary' : ℕ → Parse Expr}
  (hbinary : ∀ least, Alike (fun _ => True) size 1 (binary least) (binary' least))
include hbinary

/-- An operand takes a sign or a primary.  Behind a sign expressions are
referred to with one token less. -/
theorem alike_operand : Alike p (size + 1) 1 (operand binary) (operand binary') := by
  rw [operand, operand]
  refine .kind_bind fun k => ?_
  split
  · refine .advance_bind (by rintro t ⟨hkind, -⟩; simp [hkind]) fun _ => ?_
    exact .bind (hbinary _) fun _ => .pure rfl
  · refine .advance_bind (by rintro t ⟨hkind, -⟩; simp [hkind]) fun _ => ?_
    exact .bind (hbinary _) fun _ => .pure rfl
  -- a primary with its indices, of which only the primary has to be there
  · refine .bind (alike_primary (hbinary _)) fun e => .remaining_bind fun n hn => ?_
    exact alike_indexed (hbinary _) (hn.trans (Nat.sub_le _ 1)) e

/-- A round goes on behind an operator, and the right operand is read with what
is left. -/
theorem alike_operatorRound {next next' : Expr → Parse Expr} {n : ℕ} (hn : n ≤ size)
    (hnext : ∀ e, Alike (fun _ => True) n 0 (next e) (next' e)) (least : ℕ) (left : Expr) :
    Alike (fun _ => True) (n + 1) 0 (operatorRound binary least next left)
      (operatorRound binary' least next' left) := by
  rw [operatorRound, operatorRound]
  refine .kind_bind fun k => ?_
  cases hrule : InfixRule.of? k with
  | none => exact .pure rfl
  | some rule =>
      refine .ite (fun _ => .pure rfl) fun _ => ?_
      -- the mark of the end is no operator
      have hkind : ∀ t : Token, t.kind = k ∧ True → t.kind ≠ .endOfInput := by
        rintro t ⟨rfl, -⟩ hend
        rw [hend] at hrule
        cases hrule
      refine .advance_bind hkind fun _ => ?_
      refine .bind ((hbinary _).of_le hn) fun right => .bind (alike_refuseChain rule) fun _ => ?_
      exact (hnext _).mono (by omega) (by omega)

/-- There may be no operator at all. -/
theorem alike_climb (least : ℕ) {n : ℕ} (hn : n ≤ size + 1) (left : Expr) :
    Alike p n 0 (climb binary least n left) (climb binary' least n left) :=
  alike_loop (unrolls_climb binary least) (unrolls_climb binary' least)
    (fun _ hk _ _ hnext => alike_operatorRound hbinary (Nat.le_of_lt_succ hk) hnext least) hn left

/-- A level takes its first operand. -/
theorem alike_expressionRound (least : ℕ) :
    Alike (fun _ => True) (size + 1) 1 (expressionRound binary least)
      (expressionRound binary' least) := by
  rw [expressionRound, expressionRound]
  refine .bind (alike_operand hbinary) fun left => .remaining_bind fun n hn => ?_
  exact alike_climb hbinary least (hn.trans (Nat.sub_le _ 1)) left

end Levels

/-- **Expressions move on.**  Their levels are rounds: each refers to the next
one behind a token.
-/
theorem alike_binary (n least : ℕ) : Alike p n 1 (binary n least) (binary n least) :=
  alike_loop unrolls_binary unrolls_binary
    (fun _ _ _ _ => alike_expressionRound) (Nat.le_refl n) least

/-- An expression takes a token at least. -/
theorem alike_expression : Alike p size 1 expression expression := by
  rw [expression]
  exact .remaining_bind fun n _ => alike_binary n _

/-! ## Statements -/

/-- One word of an action line. -/
def wordRound (line : ℕ) (next : Unit → Parse (List String)) : Unit → Parse (List String) :=
  fun _ => do
    if endsLine line (← peek) then return []
    else
      let t ← advance
      return t.text :: (← next ())

theorem unrolls_lineWords (line : ℕ) : Unrolls (fun n _ => lineWords line n) (wordRound line) :=
  fun _ => rfl

/-- One statement with the semicolons before it. -/
def statementRound (statement : Parse Stmt) (close : TokenKind)
    (next : Unit → Parse (List Stmt)) : Unit → Parse (List Stmt) :=
  fun _ => do
    skipSemicolons (← remaining)
    let k ← kind
    if k = close then return []
    else if k = .endOfInput then
      fail fun found => .unexpectedEnd found ("'" ++ close.text ++ "'")
    else
      let s ← statement
      return s :: (← next ())

theorem unrolls_statementsUntil (statement : Parse Stmt) (close : TokenKind) :
    Unrolls (fun n _ => statementsUntil statement close n) (statementRound statement close) :=
  fun _ => rfl

/-- One level of statements. -/
def blockRound (next : Unit → Parse Stmt) : Unit → Parse Stmt :=
  fun _ => statementOf (next ())

theorem unrolls_statementTo : Unrolls (fun n _ => statementTo n) blockRound :=
  fun _ => rfl

section Words

variable {line : ℕ} (hleast : least ≤ 1) (hp : ∀ t, p t → endsLine line t = true → least = 0)
include hleast hp

/-- A word that belongs to the line is consumed. -/
theorem alike_wordRound {next next' : Unit → Parse (List String)} {n : ℕ}
    (hnext : ∀ s, Alike (fun _ => True) n 0 (next s) (next' s)) (s : Unit) :
    Alike p (n + 1) least (wordRound line next s) (wordRound line next' s) := by
  rw [wordRound, wordRound]
  refine .peek_bind fun t ht => .ite (fun hends => .pure (hp t ht hends)) fun hword => ?_
  -- the mark of the end would have ended the line
  have hkind : ∀ u, u = t → u.kind ≠ .endOfInput := by
    rintro u rfl hend
    simp [endsLine, hend] at hword
  refine .advance_bind hkind fun _ => ?_
  exact .bind (hnext ()) fun words => .pure (by omega)

/-- If the current token belongs to the line, then a word at least is
consumed. -/
theorem alike_lineWords (n : ℕ) : Alike p n least (lineWords line n) (lineWords line n) := by
  -- words behind the first one may be missing
  have hall : ∀ n, Alike (fun _ => True) n 0 (lineWords line n) (lineWords line n) := fun n =>
    alike_loop (unrolls_lineWords line) (unrolls_lineWords line)
      (fun _ _ _ _ => alike_wordRound (Nat.zero_le 1) fun _ _ _ => rfl) (Nat.le_refl n) ()
  -- the first word stands apart, since only of it something is known
  cases n with
  | zero => exact .zero
  | succ n =>
      show Alike p (n + 1) least (wordRound line (fun _ => lineWords line n) ())
        (wordRound line (fun _ => lineWords line n) ())
      exact alike_wordRound hleast hp (fun _ => hall n) ()

/-- A name is consumed, be it the first word of an action line or the start of
an expression. -/
theorem alike_simpleStatement :
    Alike p size least (simpleStatement line) (simpleStatement line) := by
  rw [simpleStatement]
  refine .isActionLine_bind fun _ => .ite (fun _ => ?_) fun _ => ?_
  -- an action line
  · refine .remaining_bind fun n _ => .bind (alike_lineWords hleast hp n) fun words => ?_
    exact .spanFrom_bind fun l => .pure (by omega)
  -- an assignment or a call, both of which begin with an expression
  · refine .bind alike_expression fun target => .accept_ite (by decide) ?_ ?_
    · refine .ite_bind (.fail _) (.bind alike_expression fun value => ?_)
      exact .spanFrom_bind fun l => .pure (by omega)
    · exact .ite (fun _ => .spanFrom_bind fun l => .pure (by omega)) fun _ => .unexpected _

end Words

section Statements

variable {statement statement' : Parse Stmt}
  (hstatement : Alike (fun _ => True) size 1 statement statement')
include hstatement

/-- **A round of statements** takes no token itself, but the statement in it
does.  It goes on with fewer tokens left, since semicolons before the statement
only add to what was taken. -/
theorem alike_statementRound {close : TokenKind} {next next' : Unit → Parse (List Stmt)} {n : ℕ}
    (hn : n < size) (hnext : ∀ s, Alike (fun _ => True) n 0 (next s) (next' s)) (s : Unit) :
    Alike (fun _ => True) (n + 1) 0 (statementRound statement close next s)
      (statementRound statement' close next' s) := by
  rw [statementRound, statementRound]
  refine .remaining_bind fun k hk => .bind (alike_skipSemicolons k) fun _ => ?_
  refine .kind_bind fun kind => .ite (fun _ => .pure rfl) fun _ => ?_
  refine .ite (fun _ => .fail _) fun _ => ?_
  -- the statement is read with at most as many tokens ahead as the round has
  refine .bind (hstatement.of_le (hk.trans hn)).anywhere fun st => ?_
  exact .bind ((hnext ()).of_le (Nat.sub_le_of_le_add hk)) fun sts => .pure rfl

/-- There may be no statement before the closing word. -/
theorem alike_statementsUntil (close : TokenKind) {n : ℕ} (hn : n ≤ size) :
    Alike p n 0 (statementsUntil statement close n) (statementsUntil statement' close n) :=
  alike_loop (unrolls_statementsUntil statement close) (unrolls_statementsUntil statement' close)
    (fun _ hk _ _ => alike_statementRound hstatement hk) hn ()

/-- A block takes the words around it. -/
theorem alike_block : Alike p size 1 (block statement) (block statement') := by
  rw [block, block]
  refine .bind (alike_expect (by decide) _) fun _ => .remaining_bind fun n hn => ?_
  refine .bind (alike_statementsUntil hstatement _ (hn.trans (Nat.sub_le _ 1))) fun body => ?_
  exact .bind (alike_expect (by decide) _) fun _ => .pure rfl

/-- A counting loop takes its index. -/
theorem alike_forStatement (line : ℕ) :
    Alike p size 1 (forStatement statement line) (forStatement statement' line) := by
  rw [forStatement, forStatement]
  refine .bind (alike_identifier _) fun name => ?_
  refine .bind (alike_expect (by decide) _) fun _ => ?_
  refine .bind alike_expression fun first => .bind (alike_accept _) fun descending => ?_
  refine .ite_bind (alike_expect_any _ _) ?_
  refine .bind alike_expression fun second => .bind (alike_expect (by decide) _) fun _ => ?_
  refine .bind ((alike_block hstatement).of_le (by omega)) fun body => ?_
  exact .spanFrom_bind fun l => .pure rfl

/-- A loop with a condition takes the condition. -/
theorem alike_whileStatement (line : ℕ) :
    Alike p size 1 (whileStatement statement line) (whileStatement statement' line) := by
  rw [whileStatement, whileStatement]
  refine .bind alike_expression fun cond => .bind (alike_expect (by decide) _) fun _ => ?_
  refine .bind ((alike_block hstatement).of_le (by omega)) fun body => ?_
  exact .spanFrom_bind fun l => .pure rfl

/-- A loop with its condition at the end may have an empty body, and so its own
words are what it takes. -/
theorem alike_repeatStatement (line : ℕ) :
    Alike p size 0 (repeatStatement statement line) (repeatStatement statement' line) := by
  have hrest : ∀ body : Block, Advances 0 (do
      let _ ← expect .untilWord "'until'"
      let cond ← expression
      return Stmt.whileLoop (← spanFrom line) (.unary .not cond) body) := by
    intro body
    refine advances_of_alike fun size => .bind (alike_expect (by decide) _) fun _ => ?_
    exact .bind alike_expression fun cond => .spanFrom_bind fun l => .pure rfl
  rw [repeatStatement, repeatStatement]
  refine .kind_bind fun k => .ite (fun _ => ?_) fun _ => .remaining_bind fun n hn => ?_
  · exact .bind (alike_block hstatement) fun body => (hrest body).alike
  · exact .bind (alike_statementsUntil hstatement _ hn) fun body => (hrest body).alike

/-- An arm for a guard that fails may be missing. -/
theorem alike_elseArm : Alike p size 0 (elseArm statement) (elseArm statement') := by
  rw [elseArm, elseArm]
  refine .accept_ite (by decide) (.kind_bind fun k => .ite (fun _ => ?_) fun _ => ?_) (.pure rfl)
  · exact .bind (hstatement.of_le (Nat.sub_le _ 1)).anywhere fun st => .pure rfl
  · exact .bind ((alike_block hstatement).of_le (Nat.sub_le _ 1)) fun body => .pure rfl

/-- A branch takes its guard. -/
theorem alike_ifStatement (line : ℕ) :
    Alike p size 1 (ifStatement statement line) (ifStatement statement' line) := by
  rw [ifStatement, ifStatement]
  refine .bind alike_expression fun cond => .bind (alike_expect (by decide) _) fun _ => ?_
  refine .bind ((alike_block hstatement).of_le (by omega)) fun yes => ?_
  refine .bind ((alike_elseArm hstatement).of_le (by omega)) fun no => ?_
  exact .spanFrom_bind fun l => .pure rfl

end Statements

/-- A value to return may be missing. -/
theorem alike_returnStatement (line : ℕ) :
    Alike p size 0 (returnStatement line) (returnStatement line) := by
  rw [returnStatement]
  refine .peek_bind fun next _ => .ite (fun _ => ?_) fun _ => ?_
  · exact .bind (.map alike_expression) fun value => .spanFrom_bind fun l => .pure rfl
  · exact .bind (.pure rfl) fun value => .spanFrom_bind fun l => .pure rfl

/-- A call takes the name of the procedure. -/
theorem alike_callStatement (line : ℕ) :
    Alike p size 1 (callStatement line) (callStatement line) := by
  rw [callStatement]
  refine .bind (alike_identifier _) fun name => ?_
  exact .bind (alike_arguments alike_expression) fun args => .spanFrom_bind fun l => .pure rfl

/-- A declaration takes its names. -/
theorem alike_declaration (line : ℕ) :
    Alike p size 1 (declaration line) (declaration line) := by
  rw [declaration]
  refine .remaining_bind fun n _ => ?_
  refine .bind (alike_commaList (alike_identifier _) (Nat.le_refl n)) fun names => ?_
  exact .spanFrom_bind fun l => .pure rfl

/-- Where it refers back to statements, a token was consumed. -/
theorem alike_statementOf {statement statement' : Parse Stmt}
    (hstatement : Alike (fun _ => True) size 1 statement statement') :
    Alike p (size + 1) 1 (statementOf statement) (statementOf statement') := by
  rw [statementOf, statementOf]
  refine .peek_bind fun t _ => ?_
  -- a statement with a word of its own takes that token first
  have hword : ∀ {k}, t.kind = k → k ≠ .endOfInput → ∀ {least} {rest rest' : Parse Stmt},
      Alike (fun _ => True) size least rest rest' →
        Alike (· = t) (size + 1) 1 (advance >>= fun _ => rest) (advance >>= fun _ => rest') := by
    intro k hkind hk least rest rest' hrest
    refine .advance_bind ?_ fun _ => hrest.mono (Nat.le_refl size) (Nat.zero_le least)
    rintro u rfl
    rwa [hkind]
  split
  · next hkind => exact hword hkind (by decide) (alike_forStatement hstatement _)
  · next hkind => exact hword hkind (by decide) (alike_whileStatement hstatement _)
  · next hkind => exact hword hkind (by decide) (alike_repeatStatement hstatement _)
  · next hkind => exact hword hkind (by decide) (alike_ifStatement hstatement _)
  · next hkind => exact hword hkind (by decide) (alike_returnStatement _)
  · next hkind => exact hword hkind (by decide) (alike_callStatement _)
  · next hkind => exact hword hkind (by decide) (alike_declaration _)
  · next hkind =>
      refine alike_simpleStatement (Nat.le_refl 1) ?_
      rintro u rfl hends
      simp [endsLine, hkind] at hends
  · refine .ite (fun _ => .bind alike_expression fun e => ?_) fun _ => .unexpected _
    exact .spanFrom_bind fun l => .pure rfl

/-- A level of statements takes a token before it refers to the next one. -/
theorem alike_blockRound {next next' : Unit → Parse Stmt} {n : ℕ}
    (hnext : ∀ s, Alike (fun _ => True) n 1 (next s) (next' s)) (s : Unit) :
    Alike (fun _ => True) (n + 1) 1 (blockRound next s) (blockRound next' s) :=
  alike_statementOf (hnext ())

/-- **Statements move on**, as expressions do. -/
theorem alike_statementTo (n : ℕ) : Alike p n 1 (statementTo n) (statementTo n) :=
  alike_loop unrolls_statementTo unrolls_statementTo
    (fun _ _ _ _ => alike_blockRound) (Nat.le_refl n) ()

/-- A statement takes a token at least. -/
theorem alike_statement : Alike p size 1 statement statement := by
  rw [statement]
  exact .remaining_bind fun n _ => alike_statementTo n

/-! ## Procedures -/

/-- One token of the dimensions of an array. -/
def dimensionRound (next : ℕ → Parse Unit) : ℕ → Parse Unit
  | 0 => return ()
  | depth + 1 => do
    match ← kind with
    | .leftBracket =>
      let _ ← advance
      next (depth + 2)
    | .rightBracket =>
      let _ ← advance
      next depth
    | .endOfInput => fail .unterminatedArrayParameter
    | _ =>
      let _ ← advance
      next (depth + 1)

/-- The dimensions of an array are read one token after the other. -/
theorem unrolls_dimensions : Unrolls dimensions dimensionRound := by
  intro n
  funext depth
  cases depth with
  | zero => rfl
  | succ depth => rfl

/-- One pair of brackets behind a parameter. -/
def arrayRound (next : Bool → Parse Bool) (isArray : Bool) : Parse Bool := do
  if ← accept .leftBracket then
    dimensions (← remaining) 1
    next true
  else return isArray

/-- Pairs of brackets behind a parameter are read one after the other. -/
theorem unrolls_arrayMarks : Unrolls arrayMarks arrayRound :=
  fun _ => rfl

/-- One procedure with the semicolons before it. -/
def functionRound (next : Unit → Parse (List Function)) : Unit → Parse (List Function) :=
  fun _ => do
    skipSemicolons (← remaining)
    if (← kind) = .endOfInput then return []
    else
      let f ← function
      return f :: (← next ())

theorem unrolls_functions : Unrolls (fun n _ => functions n) functionRound :=
  fun _ => rfl

/-- A round goes on behind any token but the mark of the end, at which it
fails. -/
theorem alike_dimensionRound {next next' : ℕ → Parse Unit} {n : ℕ}
    (hnext : ∀ s, Alike (fun _ => True) n 0 (next s) (next' s)) (depth : ℕ) :
    Alike (fun _ => True) (n + 1) 0 (dimensionRound next depth) (dimensionRound next' depth) := by
  cases depth with
  | zero => exact .pure rfl
  | succ depth =>
      rw [dimensionRound, dimensionRound]
      refine .kind_bind fun k => ?_
      have hadvance : k ≠ .endOfInput → ∀ s,
          Alike (fun t => t.kind = k ∧ True) (n + 1) 0 (advance >>= fun _ => next s)
            (advance >>= fun _ => next' s) := by
        intro hk s
        refine .advance_bind ?_ fun _ => hnext s
        rintro t ⟨rfl, -⟩
        exact hk
      split
      · exact hadvance (by decide) _
      · exact hadvance (by decide) _
      · exact .fail _
      · next hend => exact hadvance hend _

/-- The loop ends at the closing bracket or fails at the end of the text. -/
theorem alike_dimensions (n depth : ℕ) :
    Alike p n 0 (dimensions n depth) (dimensions n depth) :=
  alike_loop unrolls_dimensions unrolls_dimensions
    (fun _ _ _ _ => alike_dimensionRound) (Nat.le_refl n) depth

/-- A round goes on behind an opening bracket. -/
theorem alike_arrayRound {next next' : Bool → Parse Bool} {n : ℕ}
    (hnext : ∀ s, Alike (fun _ => True) n 0 (next s) (next' s)) (isArray : Bool) :
    Alike (fun _ => True) (n + 1) 0 (arrayRound next isArray) (arrayRound next' isArray) := by
  rw [arrayRound, arrayRound]
  refine .accept_ite (by decide) (.remaining_bind fun k hk => ?_) (.pure rfl)
  exact .bind (alike_dimensions k 1) fun _ => (hnext true).of_le hk

/-- A parameter may have no brackets. -/
theorem alike_arrayMarks (n : ℕ) (isArray : Bool) :
    Alike p n 0 (arrayMarks n isArray) (arrayMarks n isArray) :=
  alike_loop unrolls_arrayMarks unrolls_arrayMarks
    (fun _ _ _ _ => alike_arrayRound) (Nat.le_refl n) isArray

/-- A parameter takes its name. -/
theorem alike_parameter : Alike p size 1 parameter parameter := by
  rw [parameter]
  refine .bind (alike_identifier _) fun name => .remaining_bind fun n _ => ?_
  exact .bind (alike_arrayMarks n false) fun isArray => .pure rfl

/-- A procedure takes its name. -/
theorem alike_function : Alike p size 1 function function := by
  rw [function]
  refine .peek_bind fun t _ => .bind (alike_accept _) fun _ => ?_
  refine .bind (alike_identifier _) fun name => .bind (alike_expect (by decide) _) fun _ => ?_
  refine .bind (alike_listUntil (by decide) _ alike_parameter) fun params => ?_
  exact .bind (alike_block alike_statement) fun body => .spanFrom_bind fun l => .pure rfl

/-- A round takes no token where the text has ended; else a procedure is read,
which takes one. -/
theorem alike_functionRound {next next' : Unit → Parse (List Function)} {n : ℕ}
    (hnext : ∀ s, Alike (fun _ => True) n 0 (next s) (next' s)) (s : Unit) :
    Alike (fun _ => True) (n + 1) 0 (functionRound next s) (functionRound next' s) := by
  rw [functionRound, functionRound]
  refine .remaining_bind fun k hk => .bind (alike_skipSemicolons k) fun _ => ?_
  refine .kind_bind fun kind => .ite (fun _ => .pure rfl) fun _ => .bind alike_function fun f => ?_
  exact .bind ((hnext ()).of_le (Nat.sub_le_of_le_add hk)) fun fs => .pure rfl

/-- There may be no procedure at all. -/
theorem alike_functions (n : ℕ) : Alike p n 0 (functions n) (functions n) :=
  alike_loop unrolls_functions unrolls_functions
    (fun _ _ _ _ => alike_functionRound) (Nat.le_refl n) ()

/-- A program is read to the end, or fails for want of a procedure. -/
theorem alike_program : Alike p size 0 program program := by
  rw [program]
  refine .remaining_bind fun n _ => .bind (alike_functions n) fun fs => ?_
  exact .ite_bind (.fail _) (.pure rfl)

/-! ## All routines and all loops -/

/-- The routines of the reader.  One that is made from another one is given a
routine, and the number is that of the tokens that it takes at least. -/
inductive Routine : {α : Type} → ℕ → Parse α → Prop
  | peek : Routine 0 peek
  | kind : Routine 0 kind
  | peekNext : Routine 0 peekNext
  | advance : Routine 0 advance
  | accept (k : TokenKind) : Routine 0 (accept k)
  | expect (k : TokenKind) (what : String) : Routine 0 (expect k what)
  | identifier (what : String) : Routine 1 (identifier what)
  | skipSemicolons : Routine 0 (do skipSemicolons (← remaining))
  | commaList {α : Type} {least : ℕ} {item : Parse α} (h : Routine least item) :
      Routine least (do commaList item (← remaining))
  | listUntil {α : Type} {least : ℕ} {item : Parse α} (h : Routine least item) {close : TokenKind}
      (hclose : close ≠ .endOfInput) (what : String) : Routine 1 (listUntil close what item)
  | arguments {expression : Parse Expr} (h : Routine 1 expression) :
      Routine 1 (arguments expression)
  | enclosed {expression : Parse Expr} (h : Routine 1 expression) {close : TokenKind}
      (hclose : close ≠ .endOfInput) (what : String) : Routine 1 (enclosed expression close what)
  | dotted (name : String) : Routine 0 (do dotted (← remaining) name)
  | primary {expression : Parse Expr} (h : Routine 1 expression) : Routine 1 (primary expression)
  | indexed {expression : Parse Expr} (h : Routine 1 expression) (e : Expr) :
      Routine 0 (do indexed expression (← remaining) e)
  | operand {binary : ℕ → Parse Expr} (h : ∀ least, Routine 1 (binary least)) :
      Routine 1 (operand binary)
  | refuseChain (rule : InfixRule) : Routine 0 (refuseChain rule)
  | climb {binary : ℕ → Parse Expr} (h : ∀ least, Routine 1 (binary least)) (least : ℕ)
      (left : Expr) : Routine 0 (do climb binary least (← remaining) left)
  | binary (depth least : ℕ) : Routine 1 (binary depth least)
  | expression : Routine 1 expression
  | isActionLine : Routine 0 isActionLine
  | lineWords (line : ℕ) : Routine 0 (do lineWords line (← remaining))
  | statementsUntil {statement : Parse Stmt} (h : Routine 1 statement) (close : TokenKind) :
      Routine 0 (do statementsUntil statement close (← remaining))
  | block {statement : Parse Stmt} (h : Routine 1 statement) : Routine 1 (block statement)
  | spanFrom (first : ℕ) : Routine 0 (spanFrom first)
  | forStatement {statement : Parse Stmt} (h : Routine 1 statement) (line : ℕ) :
      Routine 1 (forStatement statement line)
  | whileStatement {statement : Parse Stmt} (h : Routine 1 statement) (line : ℕ) :
      Routine 1 (whileStatement statement line)
  | repeatStatement {statement : Parse Stmt} (h : Routine 1 statement) (line : ℕ) :
      Routine 0 (repeatStatement statement line)
  | elseArm {statement : Parse Stmt} (h : Routine 1 statement) : Routine 0 (elseArm statement)
  | ifStatement {statement : Parse Stmt} (h : Routine 1 statement) (line : ℕ) :
      Routine 1 (ifStatement statement line)
  | returnStatement (line : ℕ) : Routine 0 (returnStatement line)
  | callStatement (line : ℕ) : Routine 1 (callStatement line)
  | declaration (line : ℕ) : Routine 1 (declaration line)
  | simpleStatement (line : ℕ) : Routine 0 (simpleStatement line)
  | statementOf {statement : Parse Stmt} (h : Routine 1 statement) :
      Routine 1 (statementOf statement)
  | statementTo (depth : ℕ) : Routine 1 (statementTo depth)
  | statement : Routine 1 statement
  | dimensions (depth : ℕ) : Routine 0 (do dimensions (← remaining) depth)
  | arrayMarks (isArray : Bool) : Routine 0 (do arrayMarks (← remaining) isArray)
  | parameter : Routine 1 parameter
  | function : Routine 1 function
  | functions : Routine 0 (do functions (← remaining))
  | program : Routine 0 program

/-- Looking does not move. -/
theorem advances_of_look {m : Parse α} {value : Cursor → α}
    (h : ∀ c, m.run c = .ok (value c, c)) : Advances 0 m := by
  intro c _
  rw [h c]
  exact ⟨0, Nat.le_refl _, Nat.zero_le _, rfl⟩

/-- To any depth, whether it is enough for the tokens or not. -/
theorem alike_binary_any (depth least : ℕ) :
    Alike (fun _ => True) size 1 (binary depth least) (binary depth least) := by
  induction depth generalizing least with
  | zero => exact .unexpected _
  | succ depth ih => exact (alike_expressionRound ih least).of_le (Nat.le_succ size)

/-- The same for statements. -/
theorem alike_statementTo_any (depth : ℕ) :
    Alike (fun _ => True) size 1 (statementTo depth) (statementTo depth) := by
  induction depth with
  | zero => exact .unexpected _
  | succ depth ih => exact (alike_statementOf ih).of_le (Nat.le_succ size)

/-- **Every routine is alike to itself**, by the lemma about it.  The induction
is on how the routine is made from others; a routine that is an argument of
another one has its lemma as an induction hypothesis. -/
theorem Routine.alike {m : Parse α} (h : Routine least m) (size : ℕ) :
    Alike (fun _ => True) size least m m := by
  induction h generalizing size with
  | peek => exact (advances_of_look fun _ => rfl).alike
  | kind => exact (advances_of_look fun _ => rfl).alike
  | peekNext => exact (advances_of_look fun _ => rfl).alike
  | advance => exact advances_advance.alike
  | accept k => exact alike_accept k
  | expect k what => exact alike_expect_any k what
  | identifier what => exact alike_identifier what
  | skipSemicolons => exact .remaining_bind fun n _ => alike_skipSemicolons n
  | commaList _ ih => exact .remaining_bind fun n _ => alike_commaList (ih n) (Nat.le_refl n)
  | listUntil _ hclose what ih => exact alike_listUntil hclose what (ih size)
  | arguments _ ih => exact alike_arguments (ih size)
  | enclosed _ hclose what ih => exact alike_enclosed (ih size) hclose what
  | dotted name => exact .remaining_bind fun n _ => alike_dotted n name
  | primary _ ih => exact (alike_primary (ih size)).of_le (Nat.le_succ size)
  | indexed _ e ih =>
      exact .remaining_bind fun n hn => alike_indexed (ih size) (Nat.le_succ_of_le hn) e
  | operand _ ih => exact (alike_operand fun k => ih k size).of_le (Nat.le_succ size)
  | refuseChain rule => exact alike_refuseChain rule
  | climb _ least left ih =>
      exact .remaining_bind fun n hn =>
        alike_climb (fun k => ih k size) least (Nat.le_succ_of_le hn) left
  | binary depth least => exact alike_binary_any depth least
  | expression => exact alike_expression
  | isActionLine => exact (advances_of_look fun _ => rfl).alike
  | lineWords line =>
      exact .remaining_bind fun n _ => alike_lineWords (Nat.zero_le 1) (fun _ _ _ => rfl) n
  | statementsUntil _ close ih =>
      exact .remaining_bind fun n hn => alike_statementsUntil (ih size) close hn
  | block _ ih => exact alike_block (ih size)
  | spanFrom first => exact (advances_of_look fun _ => rfl).alike
  | forStatement _ line ih => exact alike_forStatement (ih size) line
  | whileStatement _ line ih => exact alike_whileStatement (ih size) line
  | repeatStatement _ line ih => exact alike_repeatStatement (ih size) line
  | elseArm _ ih => exact alike_elseArm (ih size)
  | ifStatement _ line ih => exact alike_ifStatement (ih size) line
  | returnStatement line => exact alike_returnStatement line
  | callStatement line => exact alike_callStatement line
  | declaration line => exact alike_declaration line
  | simpleStatement line => exact alike_simpleStatement (Nat.zero_le 1) fun _ _ _ => rfl
  | statementOf _ ih => exact (alike_statementOf (ih size)).of_le (Nat.le_succ size)
  | statementTo depth => exact alike_statementTo_any depth
  | statement => exact alike_statement
  | dimensions depth => exact .remaining_bind fun n _ => alike_dimensions n depth
  | arrayMarks isArray => exact .remaining_bind fun n _ => alike_arrayMarks n isArray
  | parameter => exact alike_parameter
  | function => exact alike_function
  | functions => exact .remaining_bind fun n _ => alike_functions n
  | program => exact alike_program

/-- The loops of the reader with their rounds.  What refers back to itself is a
loop, too, whose rounds are its levels. -/
inductive Loop : {σ α : Type} → (ℕ → σ → Parse α) → ((σ → Parse α) → σ → Parse α) → Prop
  | skipSemicolons : Loop (fun n _ => skipSemicolons n) semicolonRound
  | commaList {α : Type} {least : ℕ} {item : Parse α} (h : Routine least item) :
      Loop (fun n _ => commaList item n) (commaRound item)
  | dotted : Loop dotted fieldRound
  | indexed {expression : Parse Expr} (h : Routine 1 expression) :
      Loop (indexed expression) (indexRound expression)
  | climb {binary : ℕ → Parse Expr} (h : ∀ least, Routine 1 (binary least)) (least : ℕ) :
      Loop (climb binary least) (operatorRound binary least)
  | binary : Loop binary expressionRound
  | lineWords (line : ℕ) : Loop (fun n _ => lineWords line n) (wordRound line)
  | statementsUntil {statement : Parse Stmt} (h : Routine 1 statement) (close : TokenKind) :
      Loop (fun n _ => statementsUntil statement close n) (statementRound statement close)
  | statementTo : Loop (fun n _ => statementTo n) blockRound
  | dimensions : Loop dimensions dimensionRound
  | arrayMarks : Loop arrayMarks arrayRound
  | functions : Loop (fun n _ => functions n) functionRound

section Loops

variable {loop : ℕ → σ → Parse α} {round : (σ → Parse α) → σ → Parse α}

/-- **Every loop ends.** -/
theorem Loop.ends (h : Loop loop round) : Ends round := by
  cases h with
  | skipSemicolons => exact ends_of_alike fun _ _ _ => alike_semicolonRound
  | commaList hitem => exact ends_of_alike fun n _ _ => alike_commaRound (hitem.alike (n + 1))
  | dotted => exact ends_of_alike fun _ _ _ => alike_fieldRound
  | indexed hexpression =>
      exact ends_of_alike fun n _ _ => alike_indexRound (hexpression.alike n) (Nat.le_refl n)
  | climb hbinary least =>
      exact ends_of_alike fun n _ _ hnext =>
        alike_operatorRound (fun k => (hbinary k).alike n) (Nat.le_refl n) hnext least
  | binary => exact ends_of_alike fun _ _ _ => alike_expressionRound
  | lineWords =>
      exact ends_of_alike fun _ _ _ => alike_wordRound (Nat.zero_le 1) fun _ _ _ => rfl
  | statementsUntil hstatement close =>
      exact ends_of_alike fun n _ _ =>
        alike_statementRound (hstatement.alike (n + 1)) (Nat.lt_succ_self n)
  | statementTo => exact ends_of_alike fun _ _ _ => alike_blockRound
  | dimensions => exact ends_of_alike fun _ _ _ => alike_dimensionRound
  | arrayMarks => exact ends_of_alike fun _ _ _ => alike_arrayRound
  | functions => exact ends_of_alike fun _ _ _ => alike_functionRound

end Loops

end CostAnalysis.Parse
