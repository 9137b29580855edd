import CostAnalysis.Recurrence.Method.Iteration

/-!
# Recursion trees

Describes the tree of recursive calls level by level: how many nodes a level
has, the size of their problems, and what the level costs.  Summing the levels
gives the bound.  Where a tree is not full, the full tree gives an upper bound
only.
-/

namespace CostAnalysis.Tree

/-- A power as a number, if a machine word of 64 bits holds it, and else as
`b^k`. -/
def powerText (base exponent : Nat) : String :=
  if base = 1 then "1"
  else if base = 0 ∨ exponent < 64 then
    let power := Nat.pow base exponent
    if power < Numeric.twoTo 64 then toString power else unevaluated
  else unevaluated
where
  /-- The power with its exponent. -/
  unevaluated : String := toString base ++ "^" ++ toString exponent

/-- The size of a problem that was divided `level` times. -/
def dividedSize (b level : Nat) : String :=
  if level = 0 then "n" else "n/" ++ powerText b level

/-- The size of a problem that was reduced `level` times. -/
def reducedSize (b level : Nat) : String :=
  if level = 0 then "n" else "n-" ++ toString (b * level)

/-- The cost of a level of equal nodes. -/
def levelTotal (nodes cost : String) : String :=
  if nodes == "1" then cost else if cost == "1" then nodes else nodes ++ "·" ++ cost

/-- The range between two sizes, or the size if they agree. -/
def sizeRange (least greatest : Nat) (size : Nat → String) : String :=
  if least = greatest then size least else size greatest ++ " .. " ++ size least

/-- The levels of a full tree. -/
def fullLevels (count a : Nat) (size : Nat → String) (work : Work) : List TreeLevel :=
  (List.range count).map fun i =>
    let nodes := powerText a i
    let cost := work.atSize (size i)
    { level := i, nodes, size := size i, nodeCost := cost, totalCost := levelTotal nodes cost }

/-- Why the levels sum up as they do. -/
def levelTrend : Dominance → String
  | .leaves => "level costs grow toward the leaves, which dominate"
  | .levels => "every level costs the same, times the height"
  | .root => "level costs shrink geometrically, the root dominates"

/-- Why level costs cannot be summed. -/
def incomparable (work : Work) : String :=
  "level costs of f(n) = " ++ work.text ++ " cannot be compared"

/-- A result with the tree that it was read off. -/
def withTree (height : String) (levels : List TreeLevel) (result : MethodResult) : MethodResult :=
  { result with tree? := some { height, levels } }

/-- The tree of `aT(n/b)`. -/
def singleDivision (settings : RecurrenceSettings) (r : Recurrence) :
    Except String MethodResult :=
  match r.terms with
  | [] => .error "no recursive term"
  | t :: _ =>
    let a := t.coefficient
    let b := t.amount
    match Balance.of? a b r.work settings.masterEpsilon with
    | none => .error (incomparable r.work)
    | some balance =>
      let aText := toString a
      let bText := toString b
      let height := "log_" ++ bText ++ "(n)"
      let levels := fullLevels settings.treeLevels a (dividedSize b) r.work
      .ok <| withTree height levels <|
        .solved .tree
          ["Root cost: f(n) = " ++ r.work.text,
            "Level i has " ++ aText ++ "^i nodes of size n/" ++ bText ++ "^i",
            "Height: " ++ height ++ ", with n^log_" ++ bText ++ "(" ++ aText ++ ") = " ++
              CostAnalysis.powerText balance.critical ++ " leaves",
            "Sum of level costs: " ++ balance.comparison,
            "T(n) = " ++ balance.complexity]
          balance.complexity
          (levelTrend balance.dominance)

/-- The ratio of the costs of a level and the level above it, for terms that
divide the size. -/
def costRatio (terms : List RecursiveTerm) (k : Float) : Float :=
  terms.foldl (fun sum t => sum + Balance.levelRatio t.coefficient t.amount k) (-0.0)

/-- Doubles an exponent until the leaves no longer dominate at it. -/
def upperExponent (terms : List RecursiveTerm) : Nat → Float → Float
  | 0, high => high
  | fuel + 1, high =>
    if costRatio terms high > 1.0 && high < 64.0 then upperExponent terms fuel (high * 2.0)
    else high

/-- Halves an interval of exponents around the one at which all levels cost the
same. -/
def bisectExponent (terms : List RecursiveTerm) : Nat → Float → Float → Float
  | 0, low, high => (low + high) / 2.0
  | steps + 1, low, high =>
    let mid := (low + high) / 2.0
    if costRatio terms mid > 1.0 then bisectExponent terms steps mid high
    else bisectExponent terms steps low mid

/-- The exponent `p` with `Σ c_j/b_j^p = 1`, which is at least `lower`. -/
def balancedExponent (terms : List RecursiveTerm) (lower : Float) : Float :=
  bisectExponent terms 200 lower (upperExponent terms 7 (Numeric.Double.larger lower 1.0))

/-- The steps that sum the levels of an uneven tree, its bound, and the ratio of
its level costs. -/
def unevenSum (settings : RecurrenceSettings) (terms : List RecursiveTerm) (work : Work) :
    List String × String × Option String :=
  if work.isExponential then
    (["f(n) = " ++ work.text ++ " is exponential; the root dominates"],
      thetaOf work.growth.text, none)
  else
    let k := work.growth.degree.toDouble
    let ratio := costRatio terms k
    let ratioText := shortDecimal ratio
    let ratioStep := "Level cost ratio r = Σ c_j/b_j^" ++ shortDecimal k ++ " = " ++ ratioText
    if Float.abs (ratio - 1.0) ≤ settings.masterEpsilon then
      ([ratioStep, "r = 1: every level costs f(n) across the height"],
        thetaOf (Growth.polylog "n" work.growth.degree (work.growth.logCount + 1)).text,
        some ratioText)
    else if ratio < 1.0 then
      ([ratioStep, "r < 1: decreasing geometric series, the root dominates"],
        thetaOf work.growth.text, some ratioText)
    else
      let p := balancedExponent terms k
      ([ratioStep, "r > 1: leaves dominate; Σ c_j/b_j^p = 1 gives p = " ++ shortDecimal p],
        thetaOf (CostAnalysis.powerText p), some ratioText)

/-- The cost of a level of an uneven tree, where `cost` is that of its dearest
node. -/
def unevenTotal (ratio? : Option String) (work cost : String) (level : Nat) : String :=
  match ratio? with
  | none => "≤ " ++ cost
  | some ratio =>
    if level = 0 then work
    else if level = 1 then ratio ++ "·" ++ work
    else ratio ++ "^" ++ toString level ++ "·" ++ work

/-- The tree of several divisions. -/
def unevenDivision (settings : RecurrenceSettings) (r : Recurrence) :
    Except String MethodResult :=
  if !r.work.known then .error (incomparable r.work)
  else
    let least := r.leastAmount 2
    let greatest := r.greatestAmount 2
    let height := "log_" ++ toString least ++ "(n)"
    let (sumSteps, complexity, ratio?) := unevenSum settings r.terms r.work
    let levels := (List.range settings.treeLevels).map fun i =>
      let cost := r.work.atSize (dividedSize least i)
      { level := i
        nodes := powerText r.totalCoefficient i
        size := sizeRange least greatest fun b => dividedSize b i
        nodeCost := "≤ " ++ cost
        totalCost := unevenTotal ratio? r.work.text cost i }
    .ok <| withTree height levels <|
      .solved .tree
        (["Root cost: f(n) = " ++ r.work.text,
            "Each node splits into " ++ " + ".intercalate (r.terms.map RecursiveTerm.text),
            "Longest path: " ++ height ++ ", shortest: log_" ++ toString greatest ++ "(n)"] ++
          sumSteps ++ ["T(n) = " ++ complexity])
        complexity
        "level costs form a geometric series with ratio r"

/-- The tree of `aT(n-b)`. -/
def branchingChain (settings : RecurrenceSettings) (r : Recurrence) :
    Except String MethodResult :=
  match r.terms with
  | [] => .error "no recursive term"
  | t :: _ =>
    let aText := toString t.coefficient
    let bText := toString t.amount
    let complexity := thetaOf (Iteration.branchingGrowth t.coefficient t.amount r.work).text
    let height := "n/" ++ bText
    let levels := fullLevels settings.treeLevels t.coefficient (reducedSize t.amount) r.work
    .ok <| withTree height levels <|
      .solved .tree
        ["Root cost: f(n) = " ++ r.work.text,
          "Level i has " ++ aText ++ "^i nodes of size n-" ++ bText ++ "i",
          "Height: " ++ height ++ ", so the last level holds " ++ aText ++ "^(n/" ++ bText ++
            ") nodes",
          "Level costs grow by a factor of " ++ aText ++ "; the deepest level dominates",
          "T(n) = " ++ complexity]
        complexity
        "a full a-ary tree of depth n/b"

/-- The tree of several subtractions, bounded by the full tree. -/
def mixedChain (settings : RecurrenceSettings) (r : Recurrence) : MethodResult :=
  let least := r.leastAmount 1
  let greatest := r.greatestAmount 1
  let calls := r.totalCoefficient
  let callsText := toString calls
  let bound := (Iteration.branchingGrowth calls least r.work).bigO
  let height := "n/" ++ toString least
  let levels := (List.range settings.treeLevels).map fun i =>
    let nodes := powerText calls i
    let cost := r.work.atSize (reducedSize least i)
    { level := i
      nodes := "≤ " ++ nodes
      size := sizeRange least greatest fun b => reducedSize b i
      nodeCost := "≤ " ++ cost
      totalCost := "≤ " ++ levelTotal nodes cost }
  withTree height levels <|
    .solved .tree
      ["Root cost: f(n) = " ++ r.work.text,
        "Each node has " ++ callsText ++ " children; the longest path shrinks by " ++
          toString least ++ " per level",
        "Height at most " ++ height ++ "; shorter branches end early, so the tree is not full",
        "At most " ++ callsText ++ "^(n/" ++ toString least ++ ") nodes in total",
        "T(n) = " ++ bound]
      bound
      "upper bound from the full tree; the characteristic equation gives the tight rate"

/-! ## Diagrams -/

/-- The size of the problem of a node. -/
inductive NodeSize where
  | divided (divisor : Nat)
  | reduced (amount : Nat)

/-- The text of a size. -/
def NodeSize.text : NodeSize → String
  | .divided d => if d = 1 then "n" else "n/" ++ toString d
  | .reduced r => if r = 0 then "n" else "n-" ++ toString r

/-- The size of a subproblem; numbers stop growing at the greatest machine word
of 64 bits. -/
def NodeSize.child (amount : Nat) : NodeSize → NodeSize
  | .divided d => .divided (Nat.min (d * amount) (Numeric.twoTo 64 - 1))
  | .reduced r => .reduced (Nat.min (r + amount) (Numeric.twoTo 64 - 1))

/-- A node of a diagram. -/
structure DiagramNode where
  id : Nat
  size : NodeSize

/-- The line that declares a node. -/
def DiagramNode.line (work : Work) (n : DiagramNode) : String :=
  "    N" ++ toString n.id ++ "[\"T(" ++ n.size.text ++ ")<br/>cost: " ++ work.atSize n.size.text ++
    "\"]\n"

/-- The most nodes that a diagram has. -/
def maxNodes : Nat := 64

/-- The most levels that a diagram has. -/
def maxLevels : Nat := 3

/-- A diagram in the making: its text, its number of nodes, and the nodes of its
last level. -/
structure Drawing where
  text : String
  count : Nat
  level : List DiagramNode

/-- Draws the children of a node for one term, as long as there is room. -/
def Drawing.addChildren (work : Work) (parent : DiagramNode) (d : Drawing) (t : RecursiveTerm) :
    Drawing :=
  (List.range (Nat.min t.coefficient (maxNodes - d.count))).foldl
    (fun d _ =>
      let child : DiagramNode := ⟨d.count + 1, parent.size.child t.amount⟩
      { text := d.text ++ child.line work ++
          "    N" ++ toString parent.id ++ " --> N" ++ toString child.id ++ "\n"
        count := d.count + 1
        level := d.level ++ [child] })
    d

/-- Draws one more level. -/
def Drawing.addLevel (work : Work) (terms : List RecursiveTerm) (d : Drawing) : Drawing :=
  d.level.foldl (fun d' parent => terms.foldl (Drawing.addChildren work parent) d')
    { d with level := [] }

/-- The diagram of the first levels of a tree. -/
def diagram (r : Recurrence) (levels : Nat) : String :=
  let root : DiagramNode := ⟨1, if r.kind.isDivision then .divided 1 else .reduced 0⟩
  let start : Drawing :=
    { text := "graph TD\n" ++ root.line r.work, count := 1, level := [root] }
  ((List.range (Nat.min levels maxLevels - 1)).foldl
    (fun d _ => d.addLevel r.work r.terms) start).text

/-! ## The method -/

/-- The solution by the tree of a recurrence, without a diagram; an error if
there is no tree. -/
def derive (settings : RecurrenceSettings) (r : Recurrence) : Except String MethodResult :=
  match r.kind with
  | .chain => .error "a linear chain has one node per level; there is no branching to sum"
  | .singleDivision => singleDivision settings r
  | .equalDivision => singleDivision settings r
  | .twoDivisions => unevenDivision settings r
  | .manyDivisions => unevenDivision settings r
  | .branchingChain => branchingChain settings r
  | .mixedChain => .ok (mixedChain settings r)

/-- Solves a recurrence by its recursion tree. -/
def solve (settings : RecurrenceSettings) (r : Recurrence) : MethodResult :=
  match derive settings r with
  | .error reason => .notApplicable .tree reason
  | .ok result =>
    if settings.treeDiagram then
      { result with tree? := result.tree?.map fun t =>
          { t with diagram? := some (diagram r settings.treeLevels) } }
    else result

end CostAnalysis.Tree
