import CostAnalysis.Proofs.Source.Spans

/-!
# Where statements start

A statement of a program that was read, at any depth, is what the reader of
statements returned at one of the tokens (`Program.readAt_of_parse`).  That
token is the first one of the statement, and the statement says that it starts
on the line of that token.

**Gathering.**  `Parse.Gathers` goes through the readers once more: a reader
that is given a reader of statements moves on token by token, and in what it
returns there are no other statements than those that were read.  Where they
stand in what is returned does not matter here, so blocks are flattened.

**A property of all statements.**  The readers do not know which property `P` of
statements is gathered.  For statements at every depth it is the one that holds
of a statement because it was read at some token and holds of all those in its
blocks (`Parse.gathers_statementTo`); the induction is on the depth, where the
hypothesis speaks of the statements one level further in.
-/

namespace CostAnalysis

/-- The reader of statements, at the token number `n`, reads `st`. -/
def Stmt.ReadAt (tokens : List Token) (n : ℕ) (st : Stmt) : Prop :=
  ∃ first rest depth c, tokens = first :: rest ∧ n ≤ rest.length ∧
    (Parse.statementTo depth).run (Parse.step^[n] ⟨first, rest, 1⟩) = .ok (st, c)

namespace Cursor

/-- The second cursor is some tokens ahead. -/
def Ahead (c c' : Cursor) : Prop :=
  ∃ n ≤ c.rest.length, c' = Parse.step^[n] c

variable {c c' c'' : Cursor}

theorem ahead_refl (c : Cursor) : c.Ahead c :=
  ⟨0, Nat.zero_le _, rfl⟩

/-- Tokens ahead add up. -/
theorem Ahead.trans (h : c.Ahead c') (h' : c'.Ahead c'') : c.Ahead c'' := by
  obtain ⟨n, hn, rfl⟩ := h
  obtain ⟨k, hk, rfl⟩ := h'
  rw [Parse.rest_iterate, List.length_drop] at hk
  refine ⟨n + k, by omega, ?_⟩
  rw [Nat.add_comm, Function.iterate_add_apply]

/-- The mark of the end stays at the end. -/
theorem Ahead.ended (h : c.Ahead c') (hc : c.Ended) : c'.Ended := by
  obtain ⟨n, -, rfl⟩ := h
  exact hc.iterate n

end Cursor

namespace Parse

/-- The current token after some steps. -/
theorem current_iterate {n : ℕ} {c : Cursor} (hn : n ≤ c.rest.length) :
    (c.current :: c.rest)[n]? = some (step^[n] c).current := by
  induction n generalizing c with
  | zero => rfl
  | succ n ih =>
      obtain ⟨current, rest, line⟩ := c
      cases rest with
      | nil => simp at hn
      | cons t ts => exact ih (c := ⟨t, ts, current.line⟩) (Nat.le_of_succ_le_succ hn)

variable {α β : Type} {start : Cursor} {P : Stmt → Prop}

/-- From a cursor ahead of `start` the reader moves on, and `P` holds of the
statements in what it returns. -/
def Gathers (start : Cursor) (P : Stmt → Prop) (m : Parse α) (statements : α → Block) : Prop :=
  ∀ c, start.Ahead c → Ensures m c fun a c' => start.Ahead c' ∧ ∀ st ∈ statements a, P st

/-- The same for a reader of one statement: `P` holds of those in its blocks. -/
abbrev GathersRest (start : Cursor) (P : Stmt → Prop) (rest : Parse Stmt) : Prop :=
  Gathers start P rest fun st => st.blocks.flatten

namespace Gathers

variable {m : Parse α} {f : α → Parse β} {statements : α → Block} {statements' : β → Block}

/-- What is returned holds just the statements that were gathered. -/
theorem pure {a : α} (h : ∀ st ∈ statements a, P st) :
    Gathers start P (pure a) statements :=
  fun _ hc => .pure ⟨hc, h⟩

/-- What the first reader gathered may be used by the second one. -/
theorem bind (hm : Gathers start P m statements)
    (hf : ∀ a, (∀ st ∈ statements a, P st) → Gathers start P (f a) statements') :
    Gathers start P (m >>= f) statements' :=
  fun c hc => .bind ((hm c hc).mono fun a c' h => hf a h.2 c' h.1)

/-- What stands between the statements only moves on. -/
theorem after {Q : α → ℕ → Prop} (hended : start.Ended) (hm : Takes (fun _ => True) m Q)
    (hf : ∀ a, Gathers start P (f a) statements') : Gathers start P (m >>= f) statements' := by
  intro c hc
  refine .bind fun a c' hrun => hf a c' (hc.trans ?_)
  obtain ⟨n, hn, hmove, -⟩ := hm c a c' (hc.ended hended) trivial hrun
  exact ⟨n, hn, hmove⟩

theorem ite {b : Prop} [Decidable b] {m' : Parse α} (hm : Gathers start P m statements)
    (hm' : Gathers start P m' statements) :
    Gathers start P (if b then m else m') statements :=
  fun c hc => .ite (fun _ => hm c hc) fun _ => hm' c hc

theorem fail (cause : Token → SyntaxError.Cause) :
    Gathers start P (Parse.fail (α := α) cause) statements :=
  fun _ _ => .fail cause

theorem peek_bind {f : Token → Parse β} (h : ∀ t, Gathers start P (f t) statements') :
    Gathers start P (peek >>= f) statements' :=
  fun c => h c.current c

theorem kind_bind {f : TokenKind → Parse β} (h : ∀ k, Gathers start P (f k) statements') :
    Gathers start P (kind >>= f) statements' :=
  fun c => h c.current.kind c

theorem remaining_bind {f : ℕ → Parse β} (h : ∀ n, Gathers start P (f n) statements') :
    Gathers start P (remaining >>= f) statements' :=
  fun c => h (c.rest.length + 1) c

/-- At the end the statement gets its span. -/
theorem span {line : ℕ} {build : LineSpan → Stmt}
    (h : ∀ l, ∀ st ∈ (build l).blocks.flatten, P st) :
    GathersRest start P (spanFrom line >>= fun l => Pure.pure (build l)) :=
  fun c hc => .pure ⟨hc, h (.of line c.previousLine)⟩

end Gathers

/-! ## Statements -/

variable (hended : start.Ended)
include hended

section Statements

variable {statement : Parse Stmt} (hstatement : Gathers start P statement fun st => [st])
include hstatement

/-- The statements of a block are those that its rounds read. -/
theorem gathers_statementsUntil (close : TokenKind) (fuel : ℕ) :
    Gathers start P (statementsUntil statement close fuel) id := by
  induction fuel with
  | zero => exact .pure (by simp)
  | succ fuel ih =>
      rw [statementsUntil]
      refine .remaining_bind fun n => .after hended (takes_skipSemicolons n) fun _ => ?_
      refine .kind_bind fun k => .ite (.pure (by simp)) (.ite (.fail _) ?_)
      refine .bind hstatement fun st hst => .bind ih fun sts hsts => .pure ?_
      exact List.forall_mem_cons.mpr ⟨hst st List.mem_cons_self, hsts⟩

/-- A block with the words around it. -/
theorem gathers_block : Gathers start P (block statement) id := by
  rw [block]
  refine .after hended (takes_expect (by decide) _) fun _ => .remaining_bind fun n => ?_
  refine .bind (gathers_statementsUntil hended hstatement _ n) fun body hbody => ?_
  exact .after hended (takes_expect (by decide) _) fun _ => .pure hbody

/-- An arm that is missing has no statements. -/
theorem gathers_elseArm : Gathers start P (elseArm statement) (·.getD []) := by
  rw [elseArm]
  refine .after hended (takes_accept (by decide)) fun _ => .ite ?_ (.pure (by simp))
  refine .kind_bind fun k => .ite ?_ ?_
  · exact .bind hstatement fun st hst => .pure hst
  · exact .bind (gathers_block hended hstatement) fun body hbody => .pure hbody

/-- A counting loop has those of its body. -/
theorem gathers_forStatement (line : ℕ) :
    GathersRest start P (forStatement statement line) := by
  rw [forStatement]
  refine .after hended (takes_identifier _) fun name => ?_
  refine .after hended (takes_expect (by decide) _) fun _ => ?_
  refine .after hended takes_expression fun first => ?_
  refine .after hended (takes_accept (by decide)) fun descending => ?_
  have hrest : GathersRest start P (do
      let second ← expression
      let _ ← expect .doWord "'do'"
      let body ← block statement
      let lines ← spanFrom line
      return if descending then .forLoop lines name second first body
        else .forLoop lines name first second body) := by
    refine .after hended takes_expression fun second => ?_
    refine .after hended (takes_expect (by decide) _) fun _ => ?_
    refine .bind (gathers_block hended hstatement) fun body hbody => .span fun l => ?_
    split <;> simpa [Stmt.blocks] using hbody
  exact .ite (.after hended (takes_expect (by decide) _) fun _ => hrest) hrest

/-- So has a loop with its condition at the front. -/
theorem gathers_whileStatement (line : ℕ) :
    GathersRest start P (whileStatement statement line) := by
  rw [whileStatement]
  refine .after hended takes_expression fun cond => ?_
  refine .after hended (takes_expect (by decide) _) fun _ => ?_
  refine .bind (gathers_block hended hstatement) fun body hbody => .span fun l => ?_
  simpa [Stmt.blocks] using hbody

theorem gathers_repeatStatement (line : ℕ) :
    GathersRest start P (repeatStatement statement line) := by
  have hrest : ∀ body : Block, (∀ st ∈ id body, P st) → GathersRest start P (do
      let _ ← expect .untilWord "'until'"
      let cond ← expression
      return .whileLoop (← spanFrom line) (.unary .not cond) body) := by
    intro body hbody
    refine .after hended (takes_expect (by decide) _) fun _ => ?_
    refine .after hended takes_expression fun cond => .span fun l => ?_
    simpa [Stmt.blocks] using hbody
  rw [repeatStatement]
  refine .kind_bind fun k => .ite ?_ (.remaining_bind fun n => ?_)
  · exact .bind (gathers_block hended hstatement) hrest
  · exact .bind (gathers_statementsUntil hended hstatement _ n) hrest

/-- A branch has those of both arms. -/
theorem gathers_ifStatement (line : ℕ) :
    GathersRest start P (ifStatement statement line) := by
  rw [ifStatement]
  refine .after hended takes_expression fun cond => ?_
  refine .after hended (takes_expect (by decide) _) fun _ => ?_
  refine .bind (gathers_block hended hstatement) fun yes hyes => ?_
  refine .bind (gathers_elseArm hended hstatement) fun no hno => .span fun l => ?_
  cases no with
  | none => simpa [Stmt.blocks] using hyes
  | some no =>
      have hboth := List.forall_mem_append.mpr ⟨hyes, hno⟩
      simpa [Stmt.blocks] using hboth

end Statements

/-- A return has none. -/
theorem gathers_returnStatement (line : ℕ) :
    GathersRest start P (returnStatement line) := by
  have hrest : ∀ value : Option Expr, GathersRest start P (do
      return .returns (← spanFrom line) value) :=
    fun value => .span fun l => by simp [Stmt.blocks]
  rw [returnStatement]
  refine .peek_bind fun next => .ite ?_ ?_
  · exact .after hended (.map (Q := fun _ _ => True) (takes_expression.mono fun _ _ _ => trivial))
      hrest
  · exact .after hended (.pure (Q := fun _ _ => True) trivial) hrest

/-- A call has none. -/
theorem gathers_callStatement (line : ℕ) :
    GathersRest start P (callStatement line) := by
  rw [callStatement]
  refine .after hended (takes_identifier _) fun name => ?_
  exact .after hended (takes_arguments takes_expression) fun args =>
    .span fun l => by simp [Stmt.blocks]

/-- A declaration has none. -/
theorem gathers_declaration (line : ℕ) :
    GathersRest start P (declaration line) := by
  have hname : Takes (fun _ => True) (identifier "variable name") fun _ n => 0 ≤ n :=
    (takes_identifier _).mono fun _ _ _ => Nat.zero_le _
  rw [declaration]
  refine .remaining_bind fun fuel => .after hended (takes_commaList hname fuel) fun names => ?_
  exact .span fun l => by simp [Stmt.blocks]

/-- An assignment or an action line has none. -/
theorem gathers_simpleStatement (line : ℕ) :
    GathersRest start P (simpleStatement line) := by
  have haction : Takes (fun _ => True) isActionLine fun _ _ => True := by
    rw [isActionLine]
    exact .peek_bind fun _ _ => .peekNext_bind fun _ => .pure trivial
  rw [simpleStatement]
  refine .after hended haction fun _ => .ite (.remaining_bind fun n => ?_) ?_
  · exact .after hended (takes_lineWords line n) fun words => .span fun l => by simp [Stmt.blocks]
  · refine .after hended takes_expression fun target => ?_
    refine .after hended (takes_accept (by decide)) fun _ => .ite ?_ (.ite ?_ (.fail _))
    · have hrest : GathersRest start P (do
          let value ← expression
          return .assign (← spanFrom line) target value) :=
        .after hended takes_expression fun value => .span fun l => by simp [Stmt.blocks]
      exact .ite (.after hended (.fail (Q := fun _ _ => True) _) fun _ => hrest) hrest
    · exact .span fun l => by simp [Stmt.blocks]

/-- One level of statements. -/
theorem gathers_statementOf {statement : Parse Stmt}
    (hstatement : Gathers start P statement fun st => [st]) :
    GathersRest start P (statementOf statement) := by
  have hadvance : ∀ {rest : Parse Stmt}, GathersRest start P rest →
      GathersRest start P (advance >>= fun _ => rest) :=
    fun hrest => .after hended takes_advance_any fun _ => hrest
  rw [statementOf]
  refine .peek_bind fun t => ?_
  split
  · exact hadvance (gathers_forStatement hended hstatement _)
  · exact hadvance (gathers_whileStatement hended hstatement _)
  · exact hadvance (gathers_repeatStatement hended hstatement _)
  · exact hadvance (gathers_ifStatement hended hstatement _)
  · exact hadvance (gathers_returnStatement hended _)
  · exact hadvance (gathers_callStatement hended _)
  · exact hadvance (gathers_declaration hended _)
  · exact gathers_simpleStatement hended _
  · refine .ite (.after hended takes_expression fun e => ?_) (.fail _)
    exact .span fun l => by simp [Stmt.blocks]

/-- **All depths.**  If a statement that was read has the property as soon as
those in its blocks have it, then every statement has it, by induction on the
depth. -/
theorem gathers_statementTo (hP : ∀ n ≤ start.rest.length, ∀ depth st c,
      (statementTo depth).run (step^[n] start) = .ok (st, c) →
        (∀ s ∈ st.blocks.flatten, P s) → P st) (depth : ℕ) :
    Gathers start P (statementTo depth) fun st => [st] := by
  induction depth with
  | zero => exact .fail _
  | succ depth ih =>
      intro c hc st c' hrun
      obtain ⟨hahead, hinner⟩ := gathers_statementOf hended ih c hc st c' hrun
      refine ⟨hahead, List.forall_mem_singleton.mpr ?_⟩
      obtain ⟨n, hn, rfl⟩ := hc
      exact hP n hn (depth + 1) st c' hrun hinner

/-! ## Procedures -/

variable (hstatement : Gathers start P Parse.statement fun st => [st])
include hstatement

/-- The statements of a procedure are those of its body. -/
theorem gathers_function : Gathers start P function fun f => f.body := by
  rw [function]
  refine .peek_bind fun t => .after hended (takes_accept (by decide)) fun _ => ?_
  refine .after hended (takes_identifier _) fun name => ?_
  refine .after hended (takes_expect (by decide) _) fun _ => ?_
  refine .after hended (takes_listUntil takes_parameter (by decide) _) fun params => ?_
  exact .bind (gathers_block hended hstatement) fun body hbody c hc => .pure ⟨hc, hbody⟩

/-- Those of several procedures, in order. -/
theorem gathers_functions (fuel : ℕ) :
    Gathers start P (functions fuel) fun fs => fs.flatMap Function.body := by
  induction fuel with
  | zero => exact .pure (by simp)
  | succ fuel ih =>
      rw [functions]
      refine .remaining_bind fun n => .after hended (takes_skipSemicolons n) fun _ => ?_
      refine .kind_bind fun k => .ite (.pure (by simp)) ?_
      refine .bind (gathers_function hended hstatement) fun f hf => .bind ih fun fs hfs => .pure ?_
      rw [List.flatMap_cons]
      exact List.forall_mem_append.mpr ⟨hf, hfs⟩

theorem gathers_program : Gathers start P program fun p => p.functions.flatMap Function.body := by
  rw [program]
  refine .remaining_bind fun n => .bind (gathers_functions hended hstatement n) fun fs hfs => ?_
  exact .ite (.after hended (.fail (Q := fun _ _ => True) _) fun _ => .pure hfs) (.pure hfs)

end Parse

/-- **Every statement has a first token**: in a program that was read each
statement, at any depth, is what the reader of statements read at some token. -/
theorem Program.readAt_of_parse {source : String} {p : Program}
    (h : Program.parse source = .ok p) {tokens : List Token}
    (htokens : tokenize source = .ok tokens) :
    ∀ f ∈ p.functions, ∀ st ∈ Stmt.preorderAll f.body, ∃ n, st.ReadAt tokens n := by
  obtain ⟨t, ts, c, hread, hrun⟩ := Program.exists_run_of_parse h
  cases hread.symm.trans htokens
  have hended := (Cursor.ordered_of_tokenize hread).ended
  -- the property is one of a statement with all statements in it, since blocks
  -- are gathered only
  have hstatement : Parse.Gathers ⟨t, ts, 1⟩
      (fun st => ∀ s ∈ Stmt.preorder st, ∃ n, s.ReadAt (t :: ts) n) Parse.statement
      fun st => [st] := by
    refine .remaining_bind (Parse.gathers_statementTo hended fun n hn depth st c' hst hinner => ?_)
    intro s hs
    rcases Stmt.mem_preorder.mp hs with rfl | ⟨body, hbody, hs⟩
    · exact ⟨n, t, ts, depth, c', rfl, hn, hst⟩
    · obtain ⟨u, hu, hs⟩ := Stmt.mem_preorderAll.mp hs
      exact hinner u (List.mem_flatten_of_mem hbody hu) s hs
  obtain ⟨-, hall⟩ := Parse.gathers_program hended hstatement _ (Cursor.ahead_refl _) p c hrun
  intro f hf st hst
  obtain ⟨s, hs, hst⟩ := Stmt.mem_preorderAll.mp hst
  exact hall s (List.mem_flatMap_of_mem hf hs) st hst

/-- No statement starts at the end. -/
theorem Parse.kind_ne_of_statementTo {depth : ℕ} {c c' : Cursor} {st : Stmt}
    (h : (statementTo depth).run c = .ok (st, c')) : c.current.kind ≠ .endOfInput := by
  intro hend
  obtain ⟨⟨kind, text, position⟩, rest, line⟩ := c
  cases hend
  cases depth with
  | zero => cases h
  | succ depth => cases h

/-- A statement starts on the line of its first token. -/
theorem Stmt.ReadAt.first?_lines {source : String} {tokens : List Token} {n : ℕ} {st : Stmt}
    (h : st.ReadAt tokens n) (htokens : tokenize source = .ok tokens) :
    ∃ t, tokens[n]? = some t ∧ t.kind ≠ .endOfInput ∧ st.lines.first? = some t.line := by
  obtain ⟨first, rest, depth, c, rfl, hn, hrun⟩ := h
  have hordered := ((Cursor.ordered_of_tokenize htokens).to_iterate n).ordered
  have hspans := (Parse.lays_statementTo depth hordered st c hrun).2
  refine ⟨_, Parse.current_iterate (c := ⟨first, rest, 1⟩) hn,
    Parse.kind_ne_of_statementTo hrun, ?_⟩
  rw [hspans.lines_eq]
  rfl

end CostAnalysis
