import CostAnalysis.Numeric.Literal
import CostAnalysis.Settings.Toml.Basic

/-!
# Dates and times in a TOML document

No setting is a date.  A date may stand where settings are ignored, though, so
that dates are told from what is none: the calendar decides.
-/

namespace CostAnalysis.Toml

/-- A number of a fixed count of digits that lies between two bounds. -/
def field? (count least greatest : Nat) : Reader Nat := fun text =>
  let digits := text.take count
  let value := Numeric.DecimalParts.digitsValue digits
  if digits.length == count && digits.all Numeric.DecimalParts.isDigit && least ≤ value &&
      value ≤ greatest then some (value, text.drop count)
  else none

/-- Whether a year has a leap day. -/
def isLeapYear (year : Nat) : Bool :=
  year % 4 == 0 && (year % 100 != 0 || year % 400 == 0)

/-- The days of a month. -/
def daysInMonth (year month : Nat) : Nat :=
  if month == 2 then if isLeapYear year then 29 else 28
  else if [4, 6, 9, 11].contains month then 30
  else 31

/-- What follows a date. -/
def afterDate? (text : List Char) : Option (List Char) := do
  let (year, rest) ← field? 4 0 9999 text
  let rest ← Text.afterStart ['-'] rest
  let (month, rest) ← field? 2 1 12 rest
  let rest ← Text.afterStart ['-'] rest
  let (_, rest) ← field? 2 1 (daysInMonth year month) rest
  return rest

/-- What follows the fraction of a second, if there is one. -/
def skipFraction (text : List Char) : List Char :=
  match text with
  | '.' :: c :: rest =>
    if Numeric.DecimalParts.isDigit c then rest.dropWhile Numeric.DecimalParts.isDigit else text
  | _ => text

/-- What follows a time of day; a minute may have a leap second. -/
def afterTime? (text : List Char) : Option (List Char) := do
  let (_, rest) ← field? 2 0 23 text
  let rest ← Text.afterStart [':'] rest
  let (_, rest) ← field? 2 0 59 rest
  let rest ← Text.afterStart [':'] rest
  let (_, rest) ← field? 2 0 60 rest
  return skipFraction rest

/-- What follows the distance to universal time. -/
def afterOffset? : List Char → Option (List Char)
  | c :: rest =>
    if c == 'Z' || c == 'z' then some rest
    else if c == '+' || c == '-' then do
      let (_, rest) ← field? 2 0 23 rest
      let rest ← Text.afterStart [':'] rest
      let (_, rest) ← field? 2 0 59 rest
      return rest
    else none
  | [] => none

/-- What follows the time of day after a date, if there is one. -/
def skipTimeOfDate (text : List Char) : List Char :=
  match text with
  | c :: start =>
    if c == 'T' || c == 't' || c == ' ' then
      match afterTime? start with
      | some rest => (afterOffset? rest).getD rest
      | none => text
    else text
  | [] => text

/-- What follows a date, a time of day, or both. -/
def afterMoment? (text : List Char) : Option (List Char) :=
  match afterDate? text with
  | some rest => some (skipTimeOfDate rest)
  | none => afterTime? text

end CostAnalysis.Toml
