import CostAnalysis.Numeric.Decimal

/-!
# JSON documents

The values that reports are written as.  An object keeps its fields in the order
in which they are given.  Numbers that are neither finite nor whole are written
with the fewest digits that read back; infinities are written as `null`.
-/

namespace CostAnalysis

/-- A JSON value. -/
inductive Json where
  | null
  | bool (value : Bool)
  | int (value : Int)
  | double (value : Float)
  | str (value : String)
  | arr (items : List Json)
  | obj (fields : List (String × Json))

namespace Json

/-- A natural number as a value. -/
def nat (n : Nat) : Json := .int (Int.ofNat n)

/-- A list of texts as a value. -/
def strs (texts : List String) : Json := .arr (texts.map .str)

/-- An optional value, `null` where there is none. -/
def orNull : Option Json → Json
  | some value => value
  | none => .null

/-- A field that is left out where there is no value. -/
def field? (name : String) : Option Json → List (String × Json)
  | some value => [(name, value)]
  | none => []

/-- The hexadecimal digit of a number below sixteen. -/
def hexDigit (n : Nat) : Char :=
  if n < 10 then Char.ofNat (0x30 + n) else Char.ofNat (0x61 + n - 10)

/-- A character inside a string: quotes, backslashes and control characters are
escaped. -/
def escape (c : Char) : List Char :=
  if c == '"' then ['\\', '"']
  else if c == '\\' then ['\\', '\\']
  else if c == '\n' then ['\\', 'n']
  else if c == '\r' then ['\\', 'r']
  else if c == '\t' then ['\\', 't']
  else if c.toNat == 8 then ['\\', 'b']
  else if c.toNat == 12 then ['\\', 'f']
  else if c.toNat < 32 then
    ['\\', 'u', '0', '0', hexDigit (c.toNat / 16), hexDigit (c.toNat % 16)]
  else [c]

/-- A string literal. -/
def quote (text : String) : String :=
  String.ofList ('"' :: text.toList.flatMap escape ++ ['"'])

/-- A number literal. -/
def doubleText (x : Float) : String :=
  if Numeric.Double.isFinite x then Numeric.Decimal.withExponent x else "null"

mutual

/-- The text of a value on one line, without blanks. -/
def compact : Json → String
  | .null => "null"
  | .bool b => if b then "true" else "false"
  | .int z => toString z
  | .double x => doubleText x
  | .str s => quote s
  | .arr items => "[" ++ ",".intercalate (compactItems items) ++ "]"
  | .obj fields => "\x7b" ++ ",".intercalate (compactFields fields) ++ "\x7d"
termination_by structural j => j

/-- The texts of the items of an array. -/
def compactItems : List Json → List String
  | [] => []
  | j :: js => compact j :: compactItems js
termination_by structural js => js

/-- The texts of the fields of an object. -/
def compactFields : List (String × Json) → List String
  | [] => []
  | (name, j) :: fs => (quote name ++ ":" ++ compact j) :: compactFields fs
termination_by structural fs => fs

end

/-- Lines between brackets, indented by two blanks per level; nothing between
means no lines. -/
def block (level : Nat) (opening closing : String) (lines : List String) : String :=
  let indent (k : Nat) : String := "\n" ++ String.ofList (List.replicate (2 * k) ' ')
  if lines.isEmpty then opening ++ closing
  else opening ++ indent (level + 1) ++ ("," ++ indent (level + 1)).intercalate lines ++
    indent level ++ closing

mutual

/-- The text of a value over several lines. -/
def pretty (level : Nat) : Json → String
  | .null => "null"
  | .bool b => if b then "true" else "false"
  | .int z => toString z
  | .double x => doubleText x
  | .str s => quote s
  | .arr items => block level "[" "]" (prettyItems (level + 1) items)
  | .obj fields => block level "\x7b" "\x7d" (prettyFields (level + 1) fields)
termination_by structural j => j

/-- The texts of the items of an array. -/
def prettyItems (level : Nat) : List Json → List String
  | [] => []
  | j :: js => pretty level j :: prettyItems level js
termination_by structural js => js

/-- The texts of the fields of an object. -/
def prettyFields (level : Nat) : List (String × Json) → List String
  | [] => []
  | (name, j) :: fs => (quote name ++ ": " ++ pretty level j) :: prettyFields level fs
termination_by structural fs => fs

end

end Json

end CostAnalysis
