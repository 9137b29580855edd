import CostAnalysis.Text.Blank

/-!
# Symbols for opaque fragments

Each distinct fragment, blanks at its ends aside, is given the next free number.
-/

namespace CostAnalysis

/-- The fragments seen so far; a fragment's number is its place in the list. -/
structure SymbolTable where
  symbols : List String := []

namespace SymbolTable

/-- The number of a fragment, and the table that holds it. -/
def intern (table : SymbolTable) (text : String) : Nat × SymbolTable :=
  let trimmed := Text.trimString text
  match table.symbols.idxOf? trimmed with
  | some id => (id, table)
  | none => (table.symbols.length, ⟨table.symbols ++ [trimmed]⟩)

/-- The fragment with a number. -/
def resolve? (table : SymbolTable) (id : Nat) : Option String :=
  table.symbols[id]?

/-- How many fragments the table holds. -/
def size (table : SymbolTable) : Nat :=
  table.symbols.length

end SymbolTable

end CostAnalysis
