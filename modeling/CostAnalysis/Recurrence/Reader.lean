import CostAnalysis.Recurrence.Basic
import CostAnalysis.Recurrence.Work

/-!
# Reading recurrences

A recurrence is written as in `T(n) = 2T(n/2) + n`.  Case and blanks do not
matter, the left side may be left out, sizes may be rounded, and equal terms are
merged.  The recursive terms are cut out of the text, and what is left is the
work.
-/

namespace CostAnalysis

/-- A recurrence as written. -/
structure WrittenRecurrence where
  /-- The text without surrounding blanks. -/
  raw : String
  terms : List RecursiveTerm
  work : Work

/-- Why a text is no recurrence. -/
inductive RecurrenceFault where
  /-- A coefficient or an amount is no number of 32 bits. -/
  | badNumber (text : String)
  /-- A term does not make the problem smaller. -/
  | noShrinking (text term : String)
  | noTerm (text : String)
  | mixedKinds (text : String)
  /-- A recursive term of another form is left. -/
  | unsupportedTerm (text : String)
deriving DecidableEq

/-- The fault in words. -/
def RecurrenceFault.reason : RecurrenceFault → String
  | .badNumber text => text
  | .noShrinking text term =>
    Text.trimString text ++ " (term " ++ term ++ " does not shrink the problem)"
  | .noTerm text => Text.trimString text
  | .mixedKinds text => Text.trimString text ++ " (mixes division and subtraction terms)"
  | .unsupportedTerm text => Text.trimString text ++ " (unsupported recursive term)"

/-- A recursive term in a text. -/
structure TermMatch where
  /-- The separator before the term; nothing at the start of the text. -/
  lead : List Char
  /-- The digits of the coefficient, where there is one. -/
  coefficient? : Option (List Char)
  kind : ReductionKind
  /-- The digits of the amount. -/
  amount : List Char
  /-- The text of the term. -/
  body : List Char

namespace TermMatch

/-- A reduced size, `n/b` or `n-b`, its length, and what follows it. -/
def size? : List Char → Option ((ReductionKind × List Char) × List Char)
  | 'n' :: sign :: rest =>
    let digits := rest.takeWhile Text.isDecimalDigit
    if digits.isEmpty then none
    else if sign == '/' then some ((.division, digits), rest.dropWhile Text.isDecimalDigit)
    else if sign == '-' then some ((.subtraction, digits), rest.dropWhile Text.isDecimalDigit)
    else none
  | _ => none

/-- The rest of a text after a sign of multiplication, which may be absent. -/
def afterTimes : List Char → List Char
  | '*' :: rest => rest
  | rest => rest

/-- A term at the start of a text. -/
def body? (lead text : List Char) : Option TermMatch :=
  let digits := text.takeWhile Text.isDecimalDigit
  let rest :=
    if digits.isEmpty then text else afterTimes (text.dropWhile Text.isDecimalDigit)
  match rest with
  | 't' :: '(' :: inner =>
    match size? inner with
    | some ((kind, amount), ')' :: tail) =>
      some {
        lead
        coefficient? := if digits.isEmpty then none else some digits
        kind
        amount
        body := text.take (text.length - tail.length) }
    | _ => none
  | _ => none

/-- A term at the start of a text or after a separator. -/
def pattern : Text.Pattern TermMatch := fun before text =>
  let sized (m : TermMatch) : TermMatch × Nat := (m, m.lead.length + m.body.length)
  let atStart := if before.isNone then body? [] text else none
  match atStart, text with
  | some m, _ => some (sized m)
  | none, s :: rest => if Work.isSeparator s then (body? [s] rest).map sized else none
  | none, [] => none

/-- Reads an unsigned number of 32 bits. -/
def word? (digits : List Char) : Option Nat :=
  ((Numeric.readInt digits).filter (Numeric.fitsUnsigned 32)).map Int.toNat

/-- The term that is written, where `source` is the whole text. -/
def toTerm (source : String) (m : TermMatch) : Except RecurrenceFault RecursiveTerm :=
  match (match m.coefficient? with
    | some digits => word? digits
    | none => some 1), word? m.amount with
  | some coefficient, some amount =>
    let least := match m.kind with
      | .division => 2
      | .subtraction => 1
    if coefficient = 0 ∨ amount < least then
      .error (.noShrinking source (String.ofList m.body))
    else .ok { coefficient, kind := m.kind, amount }
  | _, _ => .error (.badNumber source)

end TermMatch

namespace WrittenRecurrence

/-- A rounded size, as in `floor(n/2)`; its value is the size. -/
def roundedSize : Text.Pattern (List Char) := fun _ text =>
  ["floor(".toList, "ceil(".toList].findSome? fun opening =>
    match Text.afterStart opening text with
    | some inner =>
      match TermMatch.size? inner with
      | some (_, ')' :: tail) =>
        let size := inner.take (inner.length - tail.length - 1)
        some (size, opening.length + size.length + 1)
      | _ => none
    | none => none

/-- Characters that are left out: blanks and brackets of rounding. -/
def isIgnored (c : Char) : Bool :=
  Text.isBlank c || c == '⌊' || c == '⌋' || c == '⌈' || c == '⌉'

/-- The usual character for a sign of multiplication or subtraction. -/
def plainSign (c : Char) : Char :=
  if c == '·' || c == '×' then '*' else if c == '−' then '-' else c

/-- The right side of a recurrence in small letters, without blanks and
rounding. -/
def rightSide (text : List Char) : List Char :=
  let plain := ((Text.lowercase text).filter fun c => !isIgnored c).map plainSign
  let right := match Text.splitFirst '=' plain with
    | some (_, rest) => rest
    | none => plain
  Text.replace roundedSize id right

/-- Merges runs of plus signs: of two in a row, the first is dropped. -/
def mergePluses : List Char → List Char
  | [] => []
  | c :: rest =>
    if c == '+' && rest.head? == some '+' then mergePluses rest else c :: mergePluses rest

/-- What is left of a right side without its recursive terms. -/
def remainder (right : List Char) : List Char :=
  Text.trimWhile (· == '+') (mergePluses (Text.replace TermMatch.pattern TermMatch.lead right))

/-- The call `t(` of a recursive term. -/
def strayTerm : Text.Pattern Unit := fun before text =>
  match text with
  | 't' :: '(' :: _ => if before.isNone then some ((), 2) else none
  | c :: 't' :: '(' :: _ => if Work.isSmallLetter c then none else some ((), 3)
  | _ => none

/-- Reads a recurrence. -/
def read (text : String) : Except RecurrenceFault WrittenRecurrence := do
  let right := rightSide text.toList
  let found ← (Text.matchesIn TermMatch.pattern right).mapM (TermMatch.toTerm text)
  let terms := found.foldl (fun terms t => RecursiveTerm.merge t terms) []
  match terms with
  | [] => throw (.noTerm text)
  | t :: ts =>
    if ts.any fun u => u.kind != t.kind then throw (.mixedKinds text)
  let rest := remainder right
  if Text.occurs strayTerm rest then throw (.unsupportedTerm text)
  return { raw := Text.trimString text, terms, work := Work.read (String.ofList rest) }

/-- The work of a text that is no recurrence, as far as it can be read. -/
def salvagedWork (text : String) : Work :=
  let rest := remainder (rightSide text.toList)
  if rest.isEmpty || Text.occurs strayTerm rest then Work.constant
  else Work.read (String.ofList rest)

end WrittenRecurrence

end CostAnalysis
