/-!
# Integers of a fixed width

Integers are unbounded in this library.  Where a result is only kept if it fits
a machine word, or is clamped or wrapped to one, the rule is stated here on
`Int` and applied by name, so that every place at which a width matters can be
found by its use of this module.
-/

namespace CostAnalysis.Numeric

/-- Two to the power `k`. -/
def twoTo (k : Nat) : Nat := Nat.pow 2 k

/-- Whether a signed word of the given width holds the integer. -/
def fitsSigned (bits : Nat) (z : Int) : Bool :=
  -(Int.ofNat (twoTo (bits - 1))) ≤ z && z < Int.ofNat (twoTo (bits - 1))

/-- Whether an unsigned word of the given width holds the integer. -/
def fitsUnsigned (bits : Nat) (z : Int) : Bool :=
  0 ≤ z && z < Int.ofNat (twoTo bits)

/-- The nearest integer that a signed word of the given width holds. -/
def saturate (bits : Nat) (z : Int) : Int :=
  let half := Int.ofNat (twoTo (bits - 1))
  if z < -half then -half else if half ≤ z then half - 1 else z

/-- The integer of the signed word with the same low bits. -/
def wrapSigned (bits : Nat) (z : Int) : Int :=
  Int.bmod z (twoTo bits)

/-- Reads an integer: an optional sign and at least one ASCII digit. -/
def readInt (text : List Char) : Option Int :=
  let digits? (cs : List Char) : Option Nat :=
    if cs.isEmpty || !cs.all (fun c => '0' ≤ c && c ≤ '9') then none
    else some (cs.foldl (fun n c => 10 * n + (c.toNat - '0'.toNat)) 0)
  match text with
  | '-' :: rest => (digits? rest).map fun n => -(Int.ofNat n)
  | '+' :: rest => (digits? rest).map Int.ofNat
  | _ => (digits? text).map Int.ofNat

/-- Reads an integer that a signed word of the given width holds. -/
def readSigned (bits : Nat) (text : List Char) : Option Int :=
  (readInt text).filter (fitsSigned bits)

end CostAnalysis.Numeric
