/-!
# Scanning texts for a pattern

A pattern is a function that says whether a match begins at a place, given the
character before it and the text from there on, and how many characters the
match takes.  Scanning finds the matches from left to right; a match takes its
characters away from later ones.
-/

namespace CostAnalysis.Text

/-- Something that may begin at a place of a text: its value and its length. -/
abbrev Pattern (α : Type) := Option Char → List Char → Option (α × Nat)

/-- The matches of a pattern between the characters that belong to none, where
the first `skip` characters belong to a match already. -/
def scanFrom (pattern : Pattern α) (before : Option Char) (skip : Nat) :
    List Char → List (Char ⊕ α)
  | [] => []
  | c :: rest =>
    match skip with
    | k + 1 => scanFrom pattern (some c) k rest
    | 0 =>
      match pattern before (c :: rest) with
      | some (value, length) => .inr value :: scanFrom pattern (some c) (length - 1) rest
      | none => .inl c :: scanFrom pattern (some c) 0 rest

/-- The matches of a pattern in a text between the characters that belong to
none. -/
def scan (pattern : Pattern α) (text : List Char) : List (Char ⊕ α) :=
  scanFrom pattern none 0 text

/-- The matches of a pattern in a text. -/
def matchesIn (pattern : Pattern α) (text : List Char) : List α :=
  (scan pattern text).filterMap fun piece =>
    match piece with
    | .inl _ => none
    | .inr value => some value

/-- Replaces each match of a pattern. -/
def replace (pattern : Pattern α) (write : α → List Char) (text : List Char) : List Char :=
  (scan pattern text).flatMap fun piece =>
    match piece with
    | .inl c => [c]
    | .inr value => write value

/-- Whether a pattern occurs in a text. -/
def occurs (pattern : Pattern α) (text : List Char) : Bool :=
  !(matchesIn pattern text).isEmpty

end CostAnalysis.Text
