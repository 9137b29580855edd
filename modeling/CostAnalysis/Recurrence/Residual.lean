import CostAnalysis.Source.SelfCalls

/-!
# What is left without recursive calls

The work of a recursive procedure is what its body costs without its self-calls,
together with the procedures that it calls and that are not recursive
themselves.
-/

namespace CostAnalysis

mutual

/-- An expression with zero in place of every call to the given name. -/
def Expr.withoutCalls (name : String) : Expr → Expr
  | .var v => .var v
  | .literal v => .literal v
  | .binary op a b => .binary op (withoutCalls name a) (withoutCalls name b)
  | .unary op a => .unary op (withoutCalls name a)
  | .compare op a b => .compare op (withoutCalls name a) (withoutCalls name b)
  | .call f args => if f == name then Expr.int 0 else .call f (withoutCallsAll name args)
  | .index a i => .index (withoutCalls name a) (withoutCalls name i)
  | .array es => .array (withoutCallsAll name es)
termination_by structural e => e

/-- A list of expressions with zero in place of every call to the given name. -/
def Expr.withoutCallsAll (name : String) : List Expr → List Expr
  | [] => []
  | e :: es => Expr.withoutCalls name e :: Expr.withoutCallsAll name es
termination_by structural es => es

end

mutual

/-- A statement without calls to the given name; a call statement is dropped. -/
def Stmt.withoutCalls? (name : String) : Stmt → Option Stmt
  | .assign l target value => some (.assign l (target.withoutCalls name) (value.withoutCalls name))
  | .declare l names => some (.declare l names)
  | .forLoop l var start stop body =>
    some (.forLoop l var (start.withoutCalls name) (stop.withoutCalls name)
      (withoutCallsAll name body))
  | .whileLoop l cond body =>
    some (.whileLoop l (cond.withoutCalls name) (withoutCallsAll name body))
  | .branch l cond yes (some no) =>
    some (.branch l (cond.withoutCalls name) (withoutCallsAll name yes)
      (some (withoutCallsAll name no)))
  | .branch l cond yes none =>
    some (.branch l (cond.withoutCalls name) (withoutCallsAll name yes) none)
  | .returns l value => some (.returns l (value.map (Expr.withoutCalls name)))
  | .evaluate l e => some (.evaluate l (e.withoutCalls name))
  | .call l f args => if f == name then none else some (.call l f (Expr.withoutCallsAll name args))
  | .action l text => some (.action l text)
termination_by structural s => s

/-- A block without calls to the given name. -/
def Stmt.withoutCallsAll (name : String) : List Stmt → List Stmt
  | [] => []
  | s :: ss =>
    match Stmt.withoutCalls? name s with
    | some kept => kept :: Stmt.withoutCallsAll name ss
    | none => Stmt.withoutCallsAll name ss
termination_by structural ss => ss

end

/-- A procedure without its self-calls. -/
def Function.withoutSelfCalls (f : Function) : Function :=
  { f with body := Stmt.withoutCallsAll f.name f.body }

/-- The names that a block calls, in the order in which the calls are
written. -/
def Stmt.calledNames (body : Block) : List String :=
  (preorderAll body).flatMap fun s => s.calls.map Prod.fst

namespace Program

/-- A search for the procedures that a procedure needs: those found, the names
that were met, and the procedures that are still to be looked at, the next one
first. -/
structure Search where
  found : List String := []
  seen : List String
  pending : List Function

/-- Meets a called name: a new one that is a procedure without self-calls is
found. -/
def Search.meet (p : Program) (s : Search) (name : String) : Search :=
  if s.seen.contains name then s
  else
    let s := { s with seen := name :: s.seen }
    match p.function? name with
    | none => s
    | some f =>
      if f.isRecursive then s
      else { s with found := s.found ++ [name], pending := f :: s.pending }

/-- Looks at the procedures that are pending.  Each procedure of the program is
looked at once, so that as many steps as it has procedures, and one for the
start, suffice. -/
def Search.run (p : Program) : Nat → Search → Search
  | 0, s => s
  | fuel + 1, s =>
    match s.pending with
    | [] => s
    | f :: rest =>
      run p fuel ((Stmt.calledNames f.body).foldl (Search.meet p) { s with pending := rest })

/-- The names of the procedures without self-calls that a procedure calls,
directly or through others of them. -/
def auxiliaries (p : Program) (f : Function) : List String :=
  (Search.run p (p.functions.length + 1) { seen := [f.name], pending := [f] }).found

/-- The program of the work of a procedure: the procedure without its
self-calls, and the procedures it needs. -/
def residual (p : Program) (f : Function) : Program :=
  { functions := f.withoutSelfCalls :: (p.auxiliaries f).filterMap p.function? }

end Program

end CostAnalysis
