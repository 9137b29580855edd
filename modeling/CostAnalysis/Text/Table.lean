/-!
# Tables of characters

A Unicode property is given by the code point ranges that have it.  The tables
of this folder list only the ranges beyond ASCII: each class states its ASCII
part as a rule of its own, so that facts about ASCII text never depend on a
table.
-/

namespace CostAnalysis.Text

/-- Inclusive code point ranges, in increasing order. -/
abbrev CharTable := List (Nat × Nat)

/-- Whether some range of the table holds the character. -/
def CharTable.contains (table : CharTable) (c : Char) : Bool :=
  table.any fun range => range.1 ≤ c.toNat && c.toNat ≤ range.2

/-- The ASCII letters `A`-`Z` and `a`-`z`. -/
def isAsciiLetter (c : Char) : Bool :=
  ('a' ≤ c && c ≤ 'z') || ('A' ≤ c && c ≤ 'Z')

/-- The ASCII digits `0`-`9`. -/
def isAsciiDigit (c : Char) : Bool :=
  '0' ≤ c && c ≤ '9'

/-- Characters below U+0080. -/
def isAscii (c : Char) : Bool :=
  c.toNat < 0x80

end CostAnalysis.Text
