import CostAnalysis.Proofs.Cost.LineTexts

/-!
# Statements and their entries

A program is walked twice for its costs.  The first walk writes one entry for
each statement.  The second one (`Program.visits`) charges lines: it goes
through the program again and takes, at each statement, the next entry of the
list, whatever that is, and stops silently where none is left.  Nothing in it
checks that an entry belongs to the statement.

That it does is proved here (`CostReport.nodes_beside_statements`).  The entries
are those of the statements as they are written, with different names; the
second walk takes each of them at its own statement and inside the scopes in
which it was written, has none left at the end, and charges the lines as the
report shows them.

**The argument.**  A walk that finds the entries of a statement at the front of
its list takes exactly these and leaves the rest (`Stmt.beside_visits`).  With
any rest in the statement this goes through loops, both arms of a branch and the
statements of a block one after the other.

**Names of entries.**  A name is the kind of the statement and a number.  No
kind has a digit in it, so that a name gives both back (`NodeCost.idOf_inj`),
and later statements of a kind have larger numbers.
-/

namespace CostAnalysis

/-! ## The walk

A walk takes from the front of the entries what belongs to a statement, and
hands the rest on.  So the lemmas have an arbitrary rest behind the entries,
which is what makes the induction over blocks go through. -/

/-- A statement, the entry that is taken for it and what the walk is inside of,
the innermost first. -/
structure Visit where
  statement : Stmt
  entry : NodeCost
  scopes : List Scope

/-- The scopes in the body of a loop, as its entry has them. -/
def NodeCost.scopesInside (n : NodeCost) (scopes : List Scope) : List Scope :=
  match n.range? with
  | some r => .loop r :: scopes
  | none => scopes

namespace Stmt

mutual

/-- The visits of a statement and all statements inside it, and the entries that
are left.  Without an entry for it, a statement is passed over. -/
def visits (scopes : List Scope) : Stmt → List NodeCost → List Visit × List NodeCost
  | _, [] => ([], [])
  | .forLoop l var start stop body, n :: ns =>
    let (inner, left) := blockVisits (n.scopesInside scopes) body ns
    (⟨.forLoop l var start stop body, n, scopes⟩ :: inner, left)
  | .whileLoop l cond body, n :: ns =>
    let (inner, left) := blockVisits (n.scopesInside scopes) body ns
    (⟨.whileLoop l cond body, n, scopes⟩ :: inner, left)
  | .branch l cond yes (some no), n :: ns =>
    let (first, between) := blockVisits (.yes :: scopes) yes ns
    let (second, left) := blockVisits (.no :: scopes) no between
    (⟨.branch l cond yes (some no), n, scopes⟩ :: (first ++ second), left)
  | .branch l cond yes none, n :: ns =>
    let (inner, left) := blockVisits (.yes :: scopes) yes ns
    (⟨.branch l cond yes none, n, scopes⟩ :: inner, left)
  | .assign l target value, n :: ns => ([⟨.assign l target value, n, scopes⟩], ns)
  | .declare l names, n :: ns => ([⟨.declare l names, n, scopes⟩], ns)
  | .returns l value, n :: ns => ([⟨.returns l value, n, scopes⟩], ns)
  | .evaluate l e, n :: ns => ([⟨.evaluate l e, n, scopes⟩], ns)
  | .call l name args, n :: ns => ([⟨.call l name args, n, scopes⟩], ns)
  | .action l text, n :: ns => ([⟨.action l text, n, scopes⟩], ns)
termination_by structural st => st

/-- The same for the statements of a block, one after the other. -/
def blockVisits (scopes : List Scope) : List Stmt → List NodeCost → List Visit × List NodeCost
  | [], entries => ([], entries)
  | st :: sts, entries =>
    let (here, between) := visits scopes st entries
    let (later, left) := blockVisits scopes sts between
    (here ++ later, left)
termination_by structural sts => sts

end

end Stmt

/-- The visits of all procedures, one after the other. -/
def Program.visits (p : Program) (entries : List NodeCost) : List Visit × List NodeCost :=
  p.functions.foldl
    (fun (done, entries) f =>
      let (here, left) := Stmt.blockVisits [] f.body entries
      (done ++ here, left))
    ([], entries)

namespace Visit

/-- The cost of a statement itself per run of what it is inside of.  The guard
of a loop with a condition is evaluated before each iteration and at the end. -/
def ownPerRun (v : Visit) : Cost :=
  match v.statement, v.entry.range? with
  | .whileLoop _ _ _, some r =>
    { best := v.entry.own.best
      average := (Formula.sum v.entry.own.average r.index r.start r.averageStop).add
        v.entry.own.average
      worst := (Formula.sum v.entry.own.worst r.index r.start r.stop).add v.entry.own.worst }
  | _, _ => v.entry.own

/-- Charges the line on which the statement starts, through all that the walk is
inside of. -/
def record (probability : Scalar) (lines : List (List Char)) (table : List (ℕ × LineCost))
    (v : Visit) : List (ℕ × LineCost) :=
  match v.statement.lines.first? with
  | some number =>
    LineCost.record lines v.statement.typeName
      (v.scopes.foldl (fun cost scope => scope.charge probability cost) v.ownPerRun) number table
  | none => table

/-- The costs of the lines that the visits of a walk charge. -/
def lines (probability : Scalar) (source : String) (visits : List Visit) : List LineCost :=
  (visits.foldl (record probability (LineCost.sourceLines source)) []).map Prod.snd

/-- The entry is the one that was written for the statement, inside the same
scopes. -/
def Own (rules : CostRules) (v : Visit) : Prop :=
  ∃ s : Surroundings, s.scopes = v.scopes ∧ (v.statement.nodes rules s).2.head? = some v.entry

/-- An own entry is charged as the statement that it is taken for. -/
theorem Own.record_eq {rules : CostRules} {v : Visit} (h : v.Own rules) (probability : Scalar)
    (lines : List (List Char)) (table : List (ℕ × LineCost)) :
    v.record probability lines table = LineCost.recordNode probability lines table v.entry := by
  obtain ⟨st, n, scopes⟩ := v
  obtain ⟨s, rfl, hentry⟩ := h
  cases st with
  | branch l cond yes no =>
      cases no with
      | none => obtain rfl := Option.some.inj hentry; rfl
      | some no => obtain rfl := Option.some.inj hentry; rfl
  | _ => obtain rfl := Option.some.inj hentry; rfl

/-- Where each visit has its own entry, the lines are charged as from the list
of the entries. -/
theorem lines_eq {rules : CostRules} {visits : List Visit} (h : ∀ v ∈ visits, v.Own rules)
    (probability : Scalar) (source : String) :
    lines probability source visits =
      LineCost.ofNodes probability source (visits.map Visit.entry) := by
  rw [lines, LineCost.ofNodes, List.foldl_map]
  congr 1
  exact List.foldl_ext _ _ [] fun table v hv => (h v hv).record_eq probability _ table

end Visit

/-! ## Each entry at its own statement -/

/-- A walk that had `entries` at the front of its list: it has visited the
statements, each with its own entry, and has the rest left. -/
structure Beside (rules : CostRules) (statements : List Stmt) (entries rest : List NodeCost)
    (run : List Visit × List NodeCost) : Prop where
  statements_eq : run.1.map Visit.statement = statements
  entries_eq : run.1.map Visit.entry = entries
  left_eq : run.2 = rest
  own : ∀ v ∈ run.1, v.Own rules

namespace Beside

variable {rules : CostRules} {sts sts' : List Stmt} {entries entries' rest : List NodeCost}
  {first second : List Visit × List NodeCost}

/-- Two walks one after the other go beside both lists. -/
theorem append (h : Beside rules sts entries (entries' ++ rest) first)
    (h' : Beside rules sts' entries' rest second) :
    Beside rules (sts ++ sts') (entries ++ entries') rest (first.1 ++ second.1, second.2) where
  statements_eq := by rw [List.map_append, h.statements_eq, h'.statements_eq]
  entries_eq := by rw [List.map_append, h.entries_eq, h'.entries_eq]
  left_eq := h'.left_eq
  own := List.forall_mem_append.mpr ⟨h.own, h'.own⟩

/-- A visit with its own entry goes before a walk. -/
theorem cons {v : Visit} (hv : v.Own rules) (h : Beside rules sts entries rest first) :
    Beside rules (v.statement :: sts) (v.entry :: entries) rest (v :: first.1, first.2) where
  statements_eq := by rw [List.map_cons, h.statements_eq]
  entries_eq := by rw [List.map_cons, h.entries_eq]
  left_eq := h.left_eq
  own := List.forall_mem_cons.mpr ⟨hv, h.own⟩

/-- A walk over nothing takes nothing. -/
theorem nil (rest : List NodeCost) : Beside rules [] [] rest ([], rest) where
  statements_eq := rfl
  entries_eq := rfl
  left_eq := rfl
  own := nofun

end Beside

namespace Stmt

variable (rules : CostRules)

/-- A statement without blocks takes the one entry that it has. -/
theorem beside_leaf {st : Stmt} {s : Surroundings} {n : NodeCost}
    (hn : (nodes rules s st).2 = [n]) (rest : List NodeCost) :
    Beside rules [st] (nodes rules s st).2 rest ([⟨st, n, s.scopes⟩], rest) := by
  have hown : Visit.Own rules ⟨st, n, s.scopes⟩ := ⟨s, rfl, by rw [hn]; rfl⟩
  rw [hn]
  exact .cons hown (.nil rest)

mutual

/-- **The walk of a statement** takes the entries of the statement and leaves
the rest. -/
theorem beside_visits : ∀ (st : Stmt) (s : Surroundings) (rest : List NodeCost),
    Beside rules (preorder st) (nodes rules s st).2 rest
      (visits s.scopes st ((nodes rules s st).2 ++ rest))
  | .assign _ _ _, _, rest => beside_leaf rules rfl rest
  | .declare _ _, _, rest => beside_leaf rules rfl rest
  | .returns _ _, _, rest => beside_leaf rules rfl rest
  | .evaluate _ _, _, rest => beside_leaf rules rfl rest
  | .call _ _ _, _, rest => beside_leaf rules rfl rest
  | .action _ _, _, rest => beside_leaf rules rfl rest
  | .forLoop l var start stop body, s, rest => by
      have hbody := beside_blockVisits body (s.inside (.loop (rangeOf s var start stop))) rest
      exact hbody.cons (v := ⟨.forLoop l var start stop body, _, s.scopes⟩) ⟨s, rfl, rfl⟩
  | .whileLoop l cond body, s, rest => by
      have hbody := beside_blockVisits body (s.inside (.loop (conditionalRange rules s))) rest
      exact hbody.cons (v := ⟨.whileLoop l cond body, _, s.scopes⟩) ⟨s, rfl, rfl⟩
  | .branch l cond yes (some no), s, rest => by
      -- the first arm leaves the entries of the second one
      have hyes := beside_blockVisits yes (s.inside .yes) (entries rules (s.inside .no) no ++ rest)
      have hno := beside_blockVisits no (s.inside .no) rest
      rw [← hyes.left_eq] at hno
      have harms := hyes.append hno
      rw [← List.append_assoc] at harms
      exact harms.cons (v := ⟨.branch l cond yes (some no), _, s.scopes⟩) ⟨s, rfl, rfl⟩
  | .branch l cond yes none, s, rest => by
      have hyes := beside_blockVisits yes (s.inside .yes) rest
      exact hyes.cons (v := ⟨.branch l cond yes none, _, s.scopes⟩) ⟨s, rfl, rfl⟩
termination_by structural st => st

/-- The walk of a block. -/
theorem beside_blockVisits : ∀ (sts : List Stmt) (s : Surroundings) (rest : List NodeCost),
    Beside rules (preorderAll sts) (entries rules s sts) rest
      (blockVisits s.scopes sts (entries rules s sts ++ rest))
  | [], _, rest => .nil rest
  | st :: sts, s, rest => by
      have hst := beside_visits st s (entries rules s sts ++ rest)
      have hsts := beside_blockVisits sts s rest
      rw [← hst.left_eq] at hsts
      have hall := hst.append hsts
      rw [← List.append_assoc, ← entries_cons] at hall
      exact hall
termination_by structural sts => sts

end

end Stmt

namespace Program

/-- **The walk of a program** takes the entries of the program and has none
left. -/
theorem beside_visits (rules : CostRules) (p : Program) :
    Beside rules p.statements (p.nodes rules).2 [] (p.visits (p.nodes rules).2) := by
  obtain ⟨fs⟩ := p
  -- what has been walked so far is the front of everything
  have hfold : ∀ (sts : List Stmt) (before : List NodeCost) (sofar : List Visit × List NodeCost),
      Beside rules sts before (fs.flatMap fun f => (f.nodes rules).2) sofar →
      Beside rules (sts ++ fs.flatMap fun f => Stmt.preorderAll f.body)
        (before ++ fs.flatMap fun f => (f.nodes rules).2) []
        (fs.foldl (fun sofar f => (sofar.1 ++ (Stmt.blockVisits [] f.body sofar.2).1,
          (Stmt.blockVisits [] f.body sofar.2).2)) sofar) := by
    induction fs with
    | nil => simp
    | cons f fs ih =>
        intro sts before sofar hsofar
        have hbody := Stmt.beside_blockVisits rules f.body { reserved := f.reservedNames }
          (fs.flatMap fun f => (f.nodes rules).2)
        rw [List.flatMap_cons] at hsofar
        rw [List.foldl_cons, List.flatMap_cons, List.flatMap_cons, ← List.append_assoc,
          ← List.append_assoc]
        refine ih _ _ _ ?_
        rw [hsofar.left_eq]
        exact hsofar.append hbody
  rw [nodes_snd]
  exact hfold [] [] ([], _) (.nil _)

/-- The statements that are listed are as many as are counted. -/
theorem length_statements (p : Program) : p.statements.length = p.statementCount := by
  obtain ⟨fs⟩ := p
  have hfold : ∀ n, fs.foldl (fun n f => n + (Stmt.preorderAll f.body).length) n =
      n + (fs.flatMap fun f => Stmt.preorderAll f.body).length := by
    induction fs with
    | nil => exact fun n => rfl
    | cons f fs ih =>
        intro n
        rw [List.foldl_cons, ih, List.flatMap_cons, List.length_append, Nat.add_assoc]
  exact ((hfold 0).trans (Nat.zero_add _)).symm

end Program

/-! ## Names of entries

A name is the kind of the statement in small letters with a number behind it
that counts this kind.  Digits begin just behind the kind, so a name gives back
its kind and its number, and numbers of one kind are never used twice. -/

/-- The kinds of statements. -/
def Stmt.kinds : List String :=
  ["Assign", "VarDeclaration", "For", "While", "If", "Return", "ExprStmt", "CallStatement",
    "ActionStatement"]

theorem Stmt.typeName_mem_kinds (st : Stmt) : st.typeName ∈ kinds := by
  cases st <;> simp [typeName, kinds]

namespace NodeCost

/-- The name of the entry with a number among those of its kind. -/
def idOf (kind : String) (number : ℕ) : String :=
  String.ofList (Text.lowercase kind.toList) ++ toString number

/-- Behind characters that are no digits, digits can be told apart. -/
theorem append_digits_inj {word word' digits digits' : List Char}
    (h : word ++ digits = word' ++ digits')
    (hword : ∀ c ∈ word, c.isDigit = false) (hword' : ∀ c ∈ word', c.isDigit = false)
    (hdigits : ∀ c ∈ digits, c.isDigit = true) (hdigits' : ∀ c ∈ digits', c.isDigit = true) :
    word = word' ∧ digits = digits' := by
  have hfront : ∀ {w d : List Char}, (∀ c ∈ w, c.isDigit = false) → (∀ c ∈ d, c.isDigit = true) →
      (w ++ d).takeWhile (fun c => !c.isDigit) = w := by
    intro w d hw hd
    rw [List.takeWhile_append_of_pos fun c hc => by simp [hw c hc]]
    cases d with
    | nil => simp
    | cons c d => simp [hd c List.mem_cons_self]
  have hwords : word = word' := by
    rw [← hfront hword hdigits, h, hfront hword' hdigits']
  subst hwords
  exact ⟨rfl, List.append_cancel_left h⟩

/-- No kind has a digit in it, and no two have the same small letters. -/
theorem lowercase_kinds :
    (∀ kind ∈ Stmt.kinds, ∀ c ∈ Text.lowercase kind.toList, c.isDigit = false) ∧
    ∀ kind ∈ Stmt.kinds, ∀ kind' ∈ Stmt.kinds,
      Text.lowercase kind.toList = Text.lowercase kind'.toList → kind = kind' := by
  decide +kernel

/-- **A name gives back the kind and the number**: digits begin just behind the
kind. -/
theorem idOf_inj {kind kind' : String} (hkind : kind ∈ Stmt.kinds) (hkind' : kind' ∈ Stmt.kinds)
    {k k' : ℕ} (h : idOf kind k = idOf kind' k') : kind = kind' ∧ k = k' := by
  have hdigits : ∀ (k : ℕ), ∀ c ∈ Nat.toDigits 10 k, c.isDigit = true := fun k c hc =>
    Nat.isDigit_of_mem_toDigits (by decide) (by decide) hc
  have hlists : Text.lowercase kind.toList ++ Nat.toDigits 10 k =
      Text.lowercase kind'.toList ++ Nat.toDigits 10 k' := by
    have htexts := congrArg String.toList h
    simpa [idOf, Nat.repr] using htexts
  obtain ⟨hword, hnumber⟩ := append_digits_inj hlists (lowercase_kinds.1 kind hkind)
    (lowercase_kinds.1 kind' hkind') (hdigits k) (hdigits k')
  refine ⟨lowercase_kinds.2 kind hkind kind' hkind' hword, ?_⟩
  rw [← Nat.ofDigitChars_ten_toDigits (n := k), hnumber, Nat.ofDigitChars_ten_toDigits]

end NodeCost

namespace CostReport

/-- Each entry gets a name. -/
theorem length_nodeIds (before : List String) (nodes : List NodeCost) :
    (nodeIds before nodes).length = nodes.length := by
  induction nodes generalizing before with
  | nil => rfl
  | cons n nodes ih => rw [nodeIds, List.length_cons, ih, List.length_cons]

/-- Numbers go on from those before. -/
theorem exists_of_mem_nodeIds {before : List String} {nodes : List NodeCost} {id : String}
    (h : id ∈ nodeIds before nodes) :
    ∃ n ∈ nodes, ∃ k, before.count n.typeName < k ∧ id = NodeCost.idOf n.typeName k := by
  induction nodes generalizing before with
  | nil => cases h
  | cons n nodes ih =>
      rw [nodeIds, List.mem_cons] at h
      rcases h with rfl | h
      · exact ⟨n, List.mem_cons_self, _, Nat.lt_succ_self _, rfl⟩
      · obtain ⟨m, hm, k, hk, rfl⟩ := ih h
        exact ⟨m, List.mem_cons_of_mem _ hm, k, (List.count_le_count_cons).trans_lt hk, rfl⟩

/-- **No two entries have the same name.** -/
theorem nodup_nodeIds {nodes : List NodeCost} (h : ∀ n ∈ nodes, n.typeName ∈ Stmt.kinds)
    (before : List String) : (nodeIds before nodes).Nodup := by
  induction nodes generalizing before with
  | nil => exact List.nodup_nil
  | cons n nodes ih =>
      obtain ⟨hn, hnodes⟩ := List.forall_mem_cons.mp h
      refine List.nodup_cons.mpr ⟨fun hmem => ?_, ih hnodes _⟩
      obtain ⟨m, hm, k, hk, heq⟩ := exists_of_mem_nodeIds hmem
      obtain ⟨hkind, hnumber⟩ := NodeCost.idOf_inj hn (hnodes m hm) heq
      rw [← hkind, List.count_cons_self, ← hnumber] at hk
      exact Nat.lt_irrefl _ hk

end CostReport

/-! ## Numbers of statements -/

namespace LineCost

/-- How many statements a table lists. -/
def listed (table : List (ℕ × LineCost)) : ℕ :=
  (table.map fun entry => entry.2.operations.length).sum

/-- A charge is listed once, on a line that was there or on a new one. -/
theorem listed_record (lines : List (List Char)) (typeName : String) (charge : Cost) (number : ℕ)
    (table : List (ℕ × LineCost)) :
    listed (record lines typeName charge number table) = listed table + 1 := by
  obtain ⟨before, old?, after, htable, -, -, halter⟩ :=
    Assoc.alter_cut number (fun k h => (Nat.compare_eq_eq.mp h).symm) table
  rw [record, halter, htable]
  cases old? with
  | none => simp [listed]; omega
  | some old => simp [listed]; omega

/-- Each entry is listed once, if it has a line to go to. -/
theorem sum_length_operations (probability : Scalar) (source : String) {nodes : List NodeCost}
    (h : ∀ n ∈ nodes, ∃ line, n.lines.first? = some line) :
    ((ofNodes probability source nodes).map fun line => line.operations.length).sum =
      nodes.length := by
  have hfold : ∀ table, listed (nodes.foldl (recordNode probability (sourceLines source)) table) =
      listed table + nodes.length := by
    induction nodes with
    | nil => exact fun table => rfl
    | cons n nodes ih =>
        intro table
        obtain ⟨line, hline⟩ := h n List.mem_cons_self
        rw [List.foldl_cons, ih fun m hm => h m (List.mem_cons_of_mem _ hm), recordNode, hline,
          listed_record, List.length_cons]
        omega
  rw [ofNodes, List.map_map]
  exact (hfold []).trans (Nat.zero_add _)

/-- Lines are reported in increasing order. -/
theorem pairwise_number (probability : Scalar) (source : String) (nodes : List NodeCost) :
    ((ofNodes probability source nodes).map LineCost.number).Pairwise (· < ·) := by
  have hlists := lists_foldl probability (sourceLines source) nodes
  rw [ofNodes, List.map_map, List.pairwise_map]
  refine hlists.sorted.imp_of_mem fun {e f} he hf hlt => ?_
  show e.2.number < f.2.number
  rw [(hlists.describes_of_mem he).number_eq, (hlists.describes_of_mem hf).number_eq]
  exact Nat.compare_eq_lt.mp hlt

end LineCost

/-! ## Reports -/

namespace CostReport

/-- **The two walks of a program that was read visit the same statements**,
whatever the rules of charging are.  There is one entry for each statement, with
its kind and its lines, in the order of the statements and under a name of its
own.  The second walk takes each entry at its own statement, has none left and
charges the lines of the report; these are in increasing order and list each
statement once. -/
theorem nodes_beside_statements {source : String} {p : Program}
    (hp : Program.parse source = .ok p) (rules : CostRules) (text : String) :
    let r := ofProgram rules p text
    r.nodes.length = p.statementCount ∧
    (r.nodes.map fun n => (n.lines, n.typeName)) =
      (p.statements.map fun st => (st.lines, st.typeName)) ∧
    (nodeIds [] r.nodes).length = r.nodes.length ∧ (nodeIds [] r.nodes).Nodup ∧
    (∃ visits, p.visits r.nodes = (visits, []) ∧
      visits.map Visit.statement = p.statements ∧ visits.map Visit.entry = r.nodes ∧
      (∀ v ∈ visits, v.Own rules) ∧ Visit.lines rules.probability text visits = r.lines) ∧
    (r.lines.map fun line => line.operations.length).sum = p.statementCount ∧
    (r.lines.map LineCost.number).Pairwise (· < ·) := by
  have hheads := p.map_head_nodes rules
  have hlength : (p.nodes rules).2.length = p.statementCount := by
    have hcount := congrArg List.length hheads
    rwa [List.length_map, List.length_map, p.length_statements] at hcount
  have hkinds : ∀ n ∈ (p.nodes rules).2, n.typeName ∈ Stmt.kinds := by
    intro n hn
    obtain ⟨st, -, hst⟩ := List.mem_map.mp (hheads ▸ List.mem_map_of_mem hn)
    rw [← (Prod.mk.inj hst).2]
    exact st.typeName_mem_kinds
  -- the walk through the program beside the list of its nodes
  have hwalk := p.beside_visits rules
  refine ⟨hlength, hheads, length_nodeIds [] _, nodup_nodeIds hkinds [],
    ⟨_, Prod.ext rfl hwalk.left_eq, hwalk.statements_eq, hwalk.entries_eq, hwalk.own, ?_⟩, ?_,
    LineCost.pairwise_number _ _ _⟩
  · exact (Visit.lines_eq hwalk.own rules.probability text).trans (by rw [hwalk.entries_eq]; rfl)
  · have hlocated : ∀ n ∈ (p.nodes rules).2, ∃ line, n.lines.first? = some line :=
      Program.first?_of_mem_nodes (Program.located_of_parse hp)
    exact (LineCost.sum_length_operations rules.probability text hlocated).trans hlength

/-- The five statements of `nestedSource`, with their names, and with each entry
beside its statement. -/
theorem nodes_beside_statements_nestedSource :
    ∃ p, Program.parse nestedSource = .ok p ∧ p.statementCount = 5 ∧
      nodeIds [] (ofProgram strictRules p nestedSource).nodes =
        ["while1", "for1", "if1", "assign1", "assign2"] ∧
      ((ofProgram strictRules p nestedSource).lines.map fun line => line.operations) =
        [["While"], ["For"], ["If", "Assign"], ["Assign"]] ∧
      (nodeIds [] (ofProgram strictRules p nestedSource).nodes).Nodup ∧
      ∃ visits, p.visits (ofProgram strictRules p nestedSource).nodes = (visits, []) ∧
        visits.map Visit.statement = p.statements ∧
        ∀ v ∈ visits, v.Own strictRules := by
  have hreport : (Program.parse nestedSource).toOption.map (fun p =>
      (p.statementCount, nodeIds [] (ofProgram strictRules p nestedSource).nodes,
        (ofProgram strictRules p nestedSource).lines.map fun line => line.operations)) =
      some (5, ["while1", "for1", "if1", "assign1", "assign2"],
        [["While"], ["For"], ["If", "Assign"], ["Assign"]]) := by
    decide +kernel
  cases hparse : Program.parse nestedSource with
  | error e =>
      rw [hparse] at hreport
      cases hreport
  | ok p =>
      rw [hparse] at hreport
      obtain ⟨hcount, hreport⟩ := Prod.mk.inj (Option.some.inj hreport)
      obtain ⟨hids, hlines⟩ := Prod.mk.inj hreport
      obtain ⟨-, -, -, hnodup, ⟨visits, hvisits, hstatements, -, hown, -⟩, -⟩ :=
        nodes_beside_statements hparse strictRules nestedSource
      exact ⟨p, rfl, hcount, hids, hlines, hnodup, visits, hvisits, hstatements, hown⟩

end CostReport

end CostAnalysis
