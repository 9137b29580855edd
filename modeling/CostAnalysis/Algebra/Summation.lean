import CostAnalysis.Algebra.Poly.Power

/-!
# Closed forms of finite sums

`Poly.sumOver` sums a polynomial over the integers `index = start, ..., stop`,
term by term.

* A power `index ^ k` is summed by Faulhaber's formula with the Bernoulli
  numbers for which `B₁ = 1/2`, as `S_k(stop) - S_k(start - 1)`.
* A geometric term `r ^ (α · index + β)` is summed as a geometric series.
* Any other term that depends on the index has no closed form here and is kept
  as an opaque atom that quotes the summation.

The closed forms are polynomial identities.  They agree with the finite sum for
integral bounds with `start ≤ stop + 1`; for smaller `stop` they continue it.
-/

namespace CostAnalysis

open Numeric

namespace Summation

/-- The largest power that is summed in closed form. -/
def maxPower : Nat := 24

/-- The binomial coefficient, by the multiplicative formula. -/
def binomial (n k : Nat) : Nat :=
  (List.range k).foldl (fun acc i => acc * (n - i) / (i + 1)) 1

/-- The Bernoulli numbers `B₀, ..., B_m` with `B₁ = -1/2`, by the recurrence
`Σ_{j ≤ m} binomial (m + 1) j · B_j = 0`. -/
def bernoulliMinus : Nat → List Scalar
  | 0 => [1]
  | m + 1 =>
    let earlier := bernoulliMinus m
    let total := earlier.zipIdx.foldl
      (fun (acc : Scalar) (b, j) => acc + Scalar.ofNat (binomial (m + 2) j) * b) 0
    earlier ++ [((-total).div? (.ofNat (m + 2))).getD 0]

/-- The Bernoulli numbers up to the largest power, with `B₁ = 1/2`. -/
def bernoulli : List Scalar :=
  (bernoulliMinus (maxPower + 1)).zipIdx.map fun (b, j) => if j = 1 then -b else b

/-- `S_k(x) = 1 ^ k + ... + x ^ k` as a polynomial in `x`. -/
def powerSum (k : Nat) (x : Poly) : Poly :=
  let total := (List.range (k + 1)).foldl
    (fun acc j =>
      let c := Scalar.ofNat (binomial (k + 1) j) * bernoulli.getD j 0
      if c.isZero then acc else acc.add ((x.powNat (k + 1 - j)).scale c))
    Poly.zero
  total.scale ((Scalar.ofFraction? 1 (Int.ofNat (k + 1))).getD 1)

/-- `α` and `β` with `p = α · index + β`, where `α` is constant and `β` free of
the index. -/
def linearIn? (p : Poly) (index : String) : Option (Scalar × Poly) :=
  p.terms.foldlM
    (fun (alpha, beta) (m, c) =>
      let (exponent, rest) := m.splitVar index
      if exponent = 0 && !rest.mentions index then some (alpha, beta.add (Poly.term c rest))
      else if exponent = 1 && rest.isOne then some (alpha + c, beta)
      else none)
    (0, Poly.zero)

/-- The sum of `outer · base ^ (times · exponent)`, where the exponent is linear
in the index: `(r ^ (α (stop + 1) + β) - r ^ (α start + β)) / (r ^ α - 1)`. -/
def geometric? (outer : Poly) (base : Scalar) (exponent : Poly) (times : Int) (index : String)
    (start stop : Poly) : Option Poly := do
  let (slope, offset) ← linearIn? exponent index
  let alpha := slope * .ofInt times
  let beta := offset.scale (.ofInt times)
  let k ← alpha.toInt?
  let ratio ← base.pow? (wrapSigned 32 k)
  if ratio.isOne then
    let count := (stop.sub start).add Poly.one
    return (outer.mul (Poly.exp base beta)).mul count
  else
    let high := Poly.exp base (((stop.add Poly.one).scale alpha).add beta)
    let low := Poly.exp base ((start.scale alpha).add beta)
    let inverse ← (1 : Scalar).div? (ratio - 1)
    return (outer.mul (high.sub low)).scale inverse

/-- The sum of one term, if it has a closed form. -/
def termSum? (c : Scalar) (m : Monomial) (index : String) (start stop : Poly) : Option Poly :=
  let (power, rest) := m.splitVar index
  let dependent := rest.factors.filter fun factor => factor.1.mentions index
  let independent := (rest.factors.filter fun factor => !factor.1.mentions index).foldl
    (fun acc factor => acc.mul (.of factor.1 factor.2)) Monomial.one
  let outer := Poly.term c independent
  match dependent with
  | [] =>
    if 0 ≤ power && power ≤ Int.ofNat maxPower then
      let upper := powerSum power.toNat stop
      let lower := powerSum power.toNat (start.sub Poly.one)
      some (outer.mul (upper.sub lower))
    else none
  | [(.exp base exponent, times)] =>
    if power = 0 then geometric? outer base exponent times index start stop else none
  | _ => none

end Summation

/-- The value of a sum, and the texts of the terms that were left without a
closed form. -/
structure SumOutcome where
  value : Poly
  unresolved : List String

/-- Adds the sum of one term.  A term without a closed form, or with an opaque
factor that mentions the index, is kept as a text. -/
def SumOutcome.addTerm (index : String) (start stop : Poly) (outcome : SumOutcome)
    (t : Monomial × Scalar) : SumOutcome :=
  let closed :=
    if t.1.factors.any fun factor => factor.1.isOpaque && factor.1.mentions index then none
    else Summation.termSum? t.2 t.1 index start stop
  match closed with
  | some value => { outcome with value := outcome.value.add value }
  | none =>
    let text := "Sum(" ++ (Poly.term t.2 t.1).text ++ ", (" ++ index ++ ", " ++ start.text ++
      ", " ++ stop.text ++ "))"
    { value := outcome.value.add (Poly.ofAtom (.unresolved text))
      unresolved := outcome.unresolved ++ [text] }

/-- Sums a polynomial over an index. -/
def Poly.sumOver (body : Poly) (index : String) (start stop : Poly) : SumOutcome :=
  body.terms.foldl (SumOutcome.addTerm index start stop) ⟨Poly.zero, []⟩

end CostAnalysis
