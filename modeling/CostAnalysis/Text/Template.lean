import CostAnalysis.Text.Blank
import CostAnalysis.Text.Scan

/-!
# Templates

A template is the text that takes the place of a match.  A dollar sign in it
begins a reference: to the match itself, to a part of the match, or to the
dollar sign.  The patterns of this library have no parts, so that every
reference to a part stands for nothing.
-/

namespace CostAnalysis.Text

/-- Characters of the name of a reference. -/
def isReferenceChar (c : Char) : Bool :=
  ('0' ≤ c && c ≤ '9') || ('A' ≤ c && c ≤ 'Z') || ('a' ≤ c && c ≤ 'z') || c == '_'

/-- Whether the name of a reference is the number zero, which names the match
itself. -/
def namesMatch (name : List Char) : Bool :=
  let digits := match name with
    | '+' :: rest => rest
    | _ => name
  !digits.isEmpty && digits.all (· == '0')

/-- What a name in a template stands for. -/
def referenceValue (found name : List Char) : List Char :=
  if namesMatch name then found else []

/-- A reference: two dollar signs for one, or a dollar sign with a name, which
is put in braces or goes as far as it can.  Its value is what it stands for. -/
def reference (found : List Char) : Pattern (List Char) := fun _ text =>
  match text with
  | '$' :: '$' :: _ => some (['$'], 2)
  | '$' :: '\x7b' :: rest =>
    (splitFirst '\x7d' rest).map fun (name, _) => (referenceValue found name, name.length + 3)
  | '$' :: rest =>
    let name := rest.takeWhile isReferenceChar
    if name.isEmpty then none else some (referenceValue found name, name.length + 1)
  | _ => none

/-- A template with the values of its references, where `found` is the match. -/
def expand (found template : List Char) : List Char :=
  replace (reference found) id template

end CostAnalysis.Text
