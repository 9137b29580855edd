import CostAnalysis.Numeric.Literal
import CostAnalysis.Settings.Yaml.Cursor

/-!
# Scalars of a YAML document

A scalar is written without quotes, in quotes, or as a block of indented lines.
The first two may go over several lines, and the breaks between these are
folded: one break is a space, and of several the first does not count.
-/

namespace CostAnalysis.Yaml

/-! ## Gaps -/

/-- What stands between two runs of characters of a scalar. -/
inductive Gap where
  /-- Blanks on one line. -/
  | spaces (cs : List Char)
  /-- Line breaks; the first is absent where a backslash took it away. -/
  | breaks (first : Option Char) (more : List Char)

namespace Gap

/-- Whether the line ends in a gap. -/
def isBroken : Gap → Bool
  | .spaces _ => false
  | .breaks _ _ => true

/-- Adds a line break; the blanks before the first one do not count. -/
def addBreak (b : Char) : Gap → Gap
  | .spaces _ => .breaks (some b) []
  | .breaks first more => .breaks first (more ++ [b])

/-- Adds a blank, which counts only before the first line break. -/
def addSpace (c : Char) : Gap → Gap
  | .spaces cs => .spaces (cs ++ [c])
  | .breaks first more => .breaks first more

/-- The characters that a gap stands for. -/
def text : Gap → List Char
  | .spaces cs => cs
  | .breaks (some '\n') [] => [' ']
  | .breaks (some '\n') more => more
  | .breaks first more => first.toList ++ more

/-- Reads the rest of a gap.  On a new line no tab may stand before the column
`indent`.  The fuel exceeds the length of the text. -/
def read? (indent : Nat) : Nat → Gap → Cursor → Option (Gap × Cursor)
  | 0, _, _ => none
  | fuel + 1, gap, c =>
    match c.head? with
    | none => some (gap, c)
    | some d =>
      if isSpace d then
        if gap.isBroken && d == '\t' && c.column < indent then none
        else read? indent fuel (gap.addSpace d) (c.advance 1)
      else
        match c.lineBreak? with
        | some (b, c) => read? indent fuel (gap.addBreak b) c
        | none => some (gap, c)

end Gap

/-! ## Scalars without quotes -/

/-- The brackets and the comma of lists and tables on one line. -/
def isFlowIndicator (c : Char) : Bool :=
  [',', '[', ']', '\x7b', '\x7d'].contains c

/-- The characters of a scalar without quotes up to the next gap or to what ends
it.  Inside of brackets, a colon directly before one of their characters is
refused. -/
def plainRun? (inFlow : Bool) : List Char → Option (List Char)
  | [] => some []
  | c :: rest =>
    if isGap c then some []
    else if inFlow && c == ':' && rest.head?.any (fun d => d == '?' || isFlowIndicator d) then none
    else if (c == ':' && Cursor.gapIn rest) || (inFlow && isFlowIndicator c) then some []
    else (plainRun? inFlow rest).map (c :: ·)

/-- Reads a scalar without quotes, of which `text` and then `gap` were read.
Outside of brackets, all its lines are indented by at least `indent`.  The
result has the text, whether a line ended after it, and the place after the gap
that follows it. -/
def plainFrom? (inFlow : Bool) (indent : Nat) :
    Nat → List Char → Gap → Cursor → Option (List Char × Bool × Cursor)
  | 0, _, _, _ => none
  | fuel + 1, text, gap, c =>
    if c.atDocumentMark || c.isAt '#' then some (text, gap.isBroken, c)
    else
      match plainRun? inFlow c.rest with
      | none => none
      | some [] => some (text, gap.isBroken, c)
      | some run =>
        let text := text ++ gap.text ++ run
        let c := c.advance run.length
        if !c.head?.any isGap then some (text, false, c)
        else
          match Gap.read? indent (c.rest.length + 1) (.spaces []) c with
          | none => none
          | some (gap, c) =>
            if !inFlow && c.column < indent then some (text, gap.isBroken, c)
            else plainFrom? inFlow indent fuel text gap c

/-- Reads a scalar without quotes. -/
def plain? (inFlow : Bool) (indent : Nat) (c : Cursor) : Option (List Char × Bool × Cursor) :=
  plainFrom? inFlow indent (c.rest.length + 1) [] (.spaces []) c

/-! ## Scalars in quotes -/

/-- The character that an escape of one letter stands for. -/
def escapeChar? (c : Char) : Option Char :=
  [('0', Char.ofNat 0), ('a', Char.ofNat 7), ('b', Char.ofNat 8), ('t', '\t'), ('\t', '\t'),
    ('n', '\n'), ('v', Char.ofNat 11), ('f', Char.ofNat 12), ('r', '\r'), ('e', Char.ofNat 27),
    (' ', ' '), ('"', '"'), ('/', '/'), ('\\', '\\'), ('N', Char.ofNat 0x85),
    ('_', Char.ofNat 0xA0), ('L', Char.ofNat 0x2028), ('P', Char.ofNat 0x2029)].lookup c

/-- The number of hexadecimal digits after the letter of an escape. -/
def escapeDigits? (c : Char) : Option Nat :=
  [('x', 2), ('u', 4), ('U', 8)].lookup c

/-- The character that an escape stands for and the length of the escape, after
its backslash. -/
def escape? (text : List Char) : Option (Char × Nat) :=
  match text with
  | [] => none
  | c :: rest =>
    match escapeDigits? c with
    | none => (escapeChar? c).map fun x => (x, 1)
    | some count =>
      match Numeric.readBase? 16 (rest.take count) with
      | none => none
      | some n =>
        if count ≤ rest.length && n.isValidChar then some (Char.ofNat n, count + 1) else none

/-- The characters of a scalar in quotes up to the next gap or the closing mark,
whether a line break was escaped there, and the place after them.  The fuel
exceeds the length of the text. -/
def quotedRun? (mark : Char) : Nat → Cursor → Option (List Char × Bool × Cursor)
  | 0, _ => none
  | fuel + 1, c =>
    match c.rest with
    | [] => some ([], false, c)
    | d :: rest =>
      if isGap d then some ([], false, c)
      else if d == mark then
        if mark == apostrophe && rest.head? == some apostrophe then
          extend apostrophe (quotedRun? mark fuel (c.advance 2))
        else some ([], false, c)
      else if d == '\\' && mark == '"' then
        if rest.head?.any isBreak then some ([], true, (c.advance 1).skipBreak)
        else
          match escape? rest with
          | some (x, length) => extend x (quotedRun? mark fuel (c.advance (length + 1)))
          | none => none
      else extend d (quotedRun? mark fuel (c.advance 1))
where
  /-- Puts a character before a run. -/
  extend (x : Char) : Option (List Char × Bool × Cursor) → Option (List Char × Bool × Cursor)
    | some (run, escaped, c) => some (x :: run, escaped, c)
    | none => none

/-- Reads the rest of a scalar in quotes.  The fuel exceeds the length of the
text. -/
def quotedFrom? (mark : Char) : Nat → List Char → Cursor → Option (List Char × Cursor)
  | 0, _, _ => none
  | fuel + 1, text, c =>
    if c.atDocumentMark || c.atEnd then none
    else
      match quotedRun? mark (c.rest.length + 1) c with
      | none => none
      | some (run, escaped, c) =>
        if c.isAt mark then some (text ++ run, c.advance 1)
        else
          let gap := if escaped then Gap.breaks none [] else Gap.spaces []
          match Gap.read? 0 (c.rest.length + 1) gap c with
          | none => none
          | some (gap, c) => quotedFrom? mark fuel (text ++ run ++ gap.text) c

/-- Reads a scalar in quotes, from its opening mark on. -/
def quoted? (mark : Char) (c : Cursor) : Option (List Char × Cursor) :=
  quotedFrom? mark (c.rest.length + 1) [] (c.advance 1)

/-! ## Blocks -/

/-- What becomes of the line breaks at the end of a block. -/
inductive Chomping where
  | strip
  | clip
  | keep
deriving DecidableEq

/-- The sign for what becomes of the breaks. -/
def Chomping.ofChar? : Char → Option Chomping
  | '-' => some .strip
  | '+' => some .keep
  | _ => none

/-- Reads a sign at a place, if there is one. -/
def chomping (c : Cursor) : Option Chomping × Cursor :=
  match c.head?.bind Chomping.ofChar? with
  | some chomping => (some chomping, c.advance 1)
  | none => (none, c)

/-- Reads a step of indentation at a place, if there is one; it is not zero. -/
def indentStep? (c : Cursor) : Option (Option Nat × Cursor) :=
  match c.head? with
  | none => some (none, c)
  | some d =>
    if d == '0' then none
    else if '1' ≤ d && d ≤ '9' then some (some (d.toNat - '0'.toNat), c.advance 1)
    else some (none, c)

/-- The signs that may follow the mark of a block, in either order, and the next
line. -/
def blockHeader? (c : Cursor) : Option (Chomping × Option Nat × Cursor) := do
  let (first?, c) := chomping c
  let (step?, c) ← indentStep? c
  let (second?, c) := if first?.isSome then (none, c) else chomping c
  let c ← c.skipLine?
  return ((first?.or second?).getD .clip, step?, c)

/-- The empty lines at the front of a block.  The fuel exceeds the length of the
text.  Without a known indentation all spaces are taken; the result has the
greatest column that was reached. -/
def emptyLines? (indent? : Option Nat) :
    Nat → Nat → List Char → Cursor → Option (Nat × List Char × Cursor)
  | 0, _, _, _ => none
  | fuel + 1, greatest, breaks, c =>
    let spaces := (c.rest.takeWhile (· == ' ')).length
    let c := c.advance (match indent? with
      | some indent => Min.min spaces (indent - c.column)
      | none => spaces)
    let greatest := Max.max greatest c.column
    let isIndentation := match indent? with
      | some indent => c.column < indent
      | none => true
    if isIndentation && c.isAt '\t' then none
    else
      match c.lineBreak? with
      | some (b, c) => emptyLines? indent? fuel greatest (breaks ++ [b]) c
      | none => some (greatest, breaks, c)

/-- A block in the making. -/
structure Block where
  text : List Char := []
  /-- The break at the end of the last line. -/
  lineEnd : List Char := []
  /-- The breaks of the empty lines after it. -/
  emptyLines : List Char := []
  /-- Whether the last line begins with a blank. -/
  indented : Bool := false

/-- Adds a line.  The lines of a folded block are joined unless one of them
begins with a blank. -/
def Block.addLine (folded : Bool) (block : Block) (line : List Char) : Block :=
  let startsBlank := line.head?.any isSpace
  let joins := folded && block.lineEnd == ['\n'] && !block.indented && !startsBlank
  let between :=
    if !joins then block.lineEnd ++ block.emptyLines
    else if block.emptyLines.isEmpty then [' ']
    else block.emptyLines
  { text := block.text ++ between ++ line, indented := startsBlank }

/-- Reads the lines of a block.  The fuel exceeds the length of the text. -/
def blockLines? (folded : Bool) (indent : Nat) : Nat → Block → Cursor → Option (Block × Cursor)
  | 0, _, _ => none
  | fuel + 1, block, c =>
    if c.column != indent || c.atEnd then some (block, c)
    else
      let (line, c) := c.takeWhile fun d => !isBreak d
      let (lineEnd, c) := match c.lineBreak? with
        | some (b, c) => ([b], c)
        | none => ([], c)
      match emptyLines? (some indent) (c.rest.length + 1) 0 [] c with
      | none => none
      | some (_, emptyLines, c) =>
        blockLines? folded indent fuel { block.addLine folded line with lineEnd, emptyLines } c

/-- Reads a block from its mark on, where the lines around it have the
indentation `outer?`. -/
def block? (folded : Bool) (outer? : Option Nat) (c : Cursor) : Option (List Char × Cursor) := do
  let (chomping, step?, c) ← blockHeader? (c.advance 1)
  let known? := step?.map fun step => outer?.getD 0 + step
  let (greatest, emptyLines, c) ← emptyLines? known? (c.rest.length + 1) 0 [] c
  let least := match outer? with
    | some outer => outer + 1
    | none => 1
  let indent := known?.getD (Max.max greatest least)
  let (block, c) ← blockLines? folded indent (c.rest.length + 1) { emptyLines } c
  match chomping with
  | .strip => return (block.text, c)
  | .clip => return (block.text ++ block.lineEnd, c)
  | .keep => return (block.text ++ block.lineEnd ++ block.emptyLines, c)

end CostAnalysis.Yaml
