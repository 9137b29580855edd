import CostAnalysis.Text.Table

/-!
# Blanks

White space of any script, and the operations on texts that are stated in terms
of it or of a single dividing character.  Texts are lists of characters here:
every rule below is a rule about a list.
-/

namespace CostAnalysis.Text

/-- Ranges beyond ASCII of white space. -/
def blankTable : CharTable :=
  [(0x85, 0x85), (0xa0, 0xa0), (0x1680, 0x1680), (0x2000, 0x200a), (0x2028, 0x2029),
    (0x202f, 0x202f), (0x205f, 0x205f), (0x3000, 0x3000)]

/-- White space: the space, the control characters from tab to carriage return,
and the spaces and line separators of Unicode. -/
def isBlank (c : Char) : Bool :=
  if isAscii c then c == ' ' || (9 ≤ c.toNat && c.toNat ≤ 13) else blankTable.contains c

/-- Removes the characters in a class from the end of a text. -/
def dropRightWhile (p : Char → Bool) (text : List Char) : List Char :=
  (text.reverse.dropWhile p).reverse

/-- Removes the characters in a class from both ends of a text. -/
def trimWhile (p : Char → Bool) (text : List Char) : List Char :=
  dropRightWhile p (text.dropWhile p)

/-- Removes the blanks at both ends of a text. -/
def trim (text : List Char) : List Char :=
  trimWhile isBlank text

/-- Divides a text at the first occurrence of a character, which belongs to
neither part. -/
def splitFirst (c : Char) : List Char → Option (List Char × List Char)
  | [] => none
  | d :: rest =>
    if d == c then some ([], rest)
    else (splitFirst c rest).map fun (before, after) => (d :: before, after)

/-- What follows `start` in a text that begins with it. -/
def afterStart : List Char → List Char → Option (List Char)
  | [], text => some text
  | _ :: _, [] => none
  | c :: start, d :: text => if c == d then afterStart start text else none

/-- The pieces of a text between the characters in a class; a text without any
is one piece. -/
def splitWhere (p : Char → Bool) : List Char → List (List Char)
  | [] => [[]]
  | c :: rest =>
    match splitWhere p rest with
    | [] => [[c]]
    | piece :: pieces => if p c then [] :: piece :: pieces else (c :: piece) :: pieces

/-- The trimmed form of a string. -/
def trimString (text : String) : String :=
  String.ofList (trim text.toList)

/-- Pads a text with blanks on the left up to a width in characters. -/
def padLeft (width : Nat) (text : String) : String :=
  String.ofList (List.replicate (width - text.length) ' ') ++ text

/-- Pads a text with blanks on the right up to a width in characters. -/
def padRight (width : Nat) (text : String) : String :=
  text ++ String.ofList (List.replicate (width - text.length) ' ')

end CostAnalysis.Text
