/-!
# Encodings of text

Decoders from bytes to characters.  A decoder of an encoding in which not every
sequence of bytes is a text gives `none` in the place of each malformed piece,
so that a strict reading and one that marks what is malformed come from the same
definition.  UTF-8 is the encoding of texts in memory; the decoders of UTF-16
and of Western bytes follow what a library of encodings documents about its own.
-/

namespace CostAnalysis.Text

/-- The character that stands for a malformed piece. -/
def replacementChar : Char :=
  Char.ofNat 0xFFFD

/-- Puts the replacement character for each malformed piece. -/
def replaceMalformed (pieces : List (Option Char)) : List Char :=
  pieces.map fun piece => piece.getD replacementChar

/-- The text without malformed pieces, if there are none. -/
def wellFormed? (pieces : List (Option Char)) : Option (List Char) :=
  if pieces.all Option.isSome then some (replaceMalformed pieces) else none

/-! ## UTF-8 -/

/-- A character of which some bytes are still to come. -/
structure Utf8Pending where
  /-- The bits read so far. -/
  bits : Nat
  /-- The number of bytes to come. -/
  left : Nat
  /-- The least value of the next byte. -/
  low : Nat
  /-- The greatest value of the next byte. -/
  high : Nat

/-- What a byte at the start of a character leads to: what it decodes to, or the
bytes that have to follow.  The bounds on the second byte exclude overlong
forms, surrogates and too large numbers. -/
def utf8Start (b : Nat) : List (Option Char) × Option Utf8Pending :=
  if b < 0x80 then ([some (Char.ofNat b)], none)
  else if b < 0xC2 then ([none], none)
  else if b < 0xE0 then ([], some ⟨b - 0xC0, 1, 0x80, 0xBF⟩)
  else if b < 0xF0 then
    ([], some ⟨b - 0xE0, 2, if b = 0xE0 then 0xA0 else 0x80, if b = 0xED then 0x9F else 0xBF⟩)
  else if b < 0xF5 then
    ([], some ⟨b - 0xF0, 3, if b = 0xF0 then 0x90 else 0x80, if b = 0xF4 then 0x8F else 0xBF⟩)
  else ([none], none)

/-- What the next byte of a character leads to; a byte that cannot follow starts
a character of its own. -/
def utf8Next (pending : Option Utf8Pending) (b : Nat) : List (Option Char) × Option Utf8Pending :=
  match pending with
  | none => utf8Start b
  | some p =>
    if p.low ≤ b ∧ b ≤ p.high then
      let bits := p.bits * 64 + (b - 0x80)
      if p.left = 1 then ([some (Char.ofNat bits)], none)
      else ([], some ⟨bits, p.left - 1, 0x80, 0xBF⟩)
    else
      let (pieces, next) := utf8Start b
      (none :: pieces, next)

/-- Decodes UTF-8 after the bytes that are pending. -/
def utf8From (pending : Option Utf8Pending) : List UInt8 → List (Option Char)
  | [] => if pending.isSome then [none] else []
  | b :: rest =>
    let (pieces, next) := utf8Next pending b.toNat
    pieces ++ utf8From next rest

/-- Decodes UTF-8. -/
def decodeUtf8 (bytes : List UInt8) : List (Option Char) :=
  utf8From none bytes

/-! ## UTF-16 -/

/-- The order of the two bytes of a unit. -/
inductive ByteOrder where
  | littleEndian
  | bigEndian
deriving DecidableEq

/-- The units of a sequence of bytes, and whether a single byte is left. -/
def units16 (order : ByteOrder) : List UInt8 → List Nat × Bool
  | [] => ([], false)
  | [_] => ([], true)
  | a :: b :: rest =>
    let unit := match order with
      | .littleEndian => a.toNat + 256 * b.toNat
      | .bigEndian => 256 * a.toNat + b.toNat
    let (units, odd) := units16 order rest
    (unit :: units, odd)

/-- Whether a unit is the first one of a pair. -/
def isHighSurrogate (u : Nat) : Bool :=
  0xD800 ≤ u && u < 0xDC00

/-- Whether a unit is the second one of a pair. -/
def isLowSurrogate (u : Nat) : Bool :=
  0xDC00 ≤ u && u < 0xE000

/-- What a unit that follows no first one of a pair leads to. -/
def utf16Start (u : Nat) : List (Option Char) × Option Nat :=
  if isHighSurrogate u then ([], some u)
  else if isLowSurrogate u then ([none], none)
  else ([some (Char.ofNat u)], none)

/-- What the next unit leads to. -/
def utf16Next (high? : Option Nat) (u : Nat) : List (Option Char) × Option Nat :=
  match high? with
  | none => utf16Start u
  | some high =>
    if isLowSurrogate u then
      ([some (Char.ofNat (0x10000 + (high - 0xD800) * 0x400 + (u - 0xDC00)))], none)
    else
      let (pieces, next) := utf16Start u
      (none :: pieces, next)

/-- Decodes units after the first one of a pair, if there is one; what is
incomplete at the end is one malformed piece. -/
def utf16From (odd : Bool) (high? : Option Nat) : List Nat → List (Option Char)
  | [] => if odd || high?.isSome then [none] else []
  | u :: rest =>
    let (pieces, next) := utf16Next high? u
    pieces ++ utf16From odd next rest

/-- Decodes UTF-16. -/
def decodeUtf16 (order : ByteOrder) (bytes : List UInt8) : List (Option Char) :=
  let (units, odd) := units16 order bytes
  utf16From odd none units

/-! ## Western bytes -/

/-- The characters of the bytes from `0x80` to `0x9F` in the Western encoding
with 256 characters; all others are their own numbers. -/
def westernExtras : List Nat :=
  [0x20AC, 0x0081, 0x201A, 0x0192, 0x201E, 0x2026, 0x2020, 0x2021,
    0x02C6, 0x2030, 0x0160, 0x2039, 0x0152, 0x008D, 0x017D, 0x008F,
    0x0090, 0x2018, 0x2019, 0x201C, 0x201D, 0x2022, 0x2013, 0x2014,
    0x02DC, 0x2122, 0x0161, 0x203A, 0x0153, 0x009D, 0x017E, 0x0178]

/-- The character of a byte. -/
def westernChar (b : UInt8) : Char :=
  let n := b.toNat
  if 0x80 ≤ n ∧ n < 0xA0 then Char.ofNat (westernExtras.getD (n - 0x80) 0) else Char.ofNat n

/-- Decodes Western bytes. -/
def decodeWestern (bytes : List UInt8) : List Char :=
  bytes.map westernChar

end CostAnalysis.Text
