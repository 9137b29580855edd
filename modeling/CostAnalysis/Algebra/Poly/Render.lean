import CostAnalysis.Algebra.Poly.Arithmetic

/-!
# Texts of polynomials

A polynomial is written with its heaviest term first: exponentials before
powers, then by degree, then by the number of factors; among terms of equal
weight those with a positive coefficient come first.  A term is one fraction,
`3*n**2/(2*m)`.  The expanded text can be read back as an expression, and so can
the factored one, `n*(n + 1)/2`, which takes out the common factor of the
coefficients and of the variables.
-/

namespace CostAnalysis

/-- Whether the text of an atom is put in parentheses before an exponent. -/
def Atom.needsParens : Atom → Bool
  | .exp _ _ => true
  | .power _ e => e ≠ .half
  | _ => false

/-! ## Weights -/

mutual

/-- Adds the degree of each factor in turn: plain variables, and powers through
their bases. -/
def Monomial.degreeFrom (acc : Scalar) : List (Atom × Int) → Scalar
  | [] => acc
  | (.var _, e) :: fs => Monomial.degreeFrom (acc + .ofInt e) fs
  | (.power p s, e) :: fs => Monomial.degreeFrom (acc + p.maxDegree * s * .ofInt e) fs
  | (.log _, _) :: fs => Monomial.degreeFrom acc fs
  | (.min _ _, _) :: fs => Monomial.degreeFrom acc fs
  | (.max _ _, _) :: fs => Monomial.degreeFrom acc fs
  | (.exp _ _, _) :: fs => Monomial.degreeFrom acc fs
  | (.unresolved _, _) :: fs => Monomial.degreeFrom acc fs
  | (.unknown _, _) :: fs => Monomial.degreeFrom acc fs
termination_by structural fs => fs

/-- The total degree of a monomial. -/
def Monomial.degree : Monomial → Scalar
  | .ofFactors fs => Monomial.degreeFrom 0 fs
termination_by structural m => m

/-- The highest total degree of a term; zero for the empty sum. -/
def Poly.maxDegree : Poly → Scalar
  | .ofTerms ts => (Poly.maxDegreeFrom none ts).getD 0
termination_by structural p => p

/-- The greatest of `acc` and the degrees of the terms. -/
def Poly.maxDegreeFrom (acc : Option Scalar) : List (Monomial × Scalar) → Option Scalar
  | [] => acc
  | (m, _) :: ts =>
    let degree := m.degree
    Poly.maxDegreeFrom (some ((acc.map fun best => Scalar.greatest best degree).getD degree)) ts
termination_by structural ts => ts

end

/-- What decides the place of a term in the text. -/
structure Monomial.Weight where
  exponentials : Int
  degree : Scalar
  factors : Nat

/-- Lighter weights come first. -/
def Monomial.Weight.cmp (a b : Monomial.Weight) : Ordering :=
  (compare a.exponentials b.exponentials).then
    ((a.degree.cmp b.degree).then (compare a.factors b.factors))

/-- The weight of a monomial. -/
def Monomial.weight (m : Monomial) : Monomial.Weight where
  exponentials := m.factors.foldl
    (fun n factor => match factor with
      | (.exp _ _, e) => n + e
      | _ => n) 0
  degree := m.degree
  factors := m.factors.length

/-- The order of terms in a text. -/
def Poly.termCmp (s t : Monomial × Scalar) : Ordering :=
  (t.1.weight.cmp s.1.weight).then
    ((compare s.2.isNegative t.2.isNegative).then (s.1.cmp t.1))

/-- The terms of a polynomial in the order of its text. -/
def Poly.sortedTerms (p : Poly) : List (Monomial × Scalar) :=
  p.terms.mergeSort fun s t => Poly.termCmp s t != .gt

/-- The binding strength of a polynomial's text: 1 for a sum, 2 for a product, a
quotient or a number that is negative or no integer, 3 for a power, 4 for
anything else. -/
def Poly.precedence (p : Poly) : Nat :=
  match p.terms with
  | [] => 4
  | [(m, c)] =>
    if c.isNegative || !c.isInteger then 2
    else
      match m.factors with
      | [] => 4
      | [(a, e)] =>
        if !c.isOne then 2
        else if e = 1 then (if a.needsParens then 3 else 4)
        else if e < 0 then 2
        else 3
      | _ => 2
  | _ => 1

/-! ## Texts -/

/-- A text in parentheses. -/
def parenthesized (text : String) : String :=
  "(" ++ text ++ ")"

/-- A factor with a positive exponent, given the text of its atom. -/
def Atom.powerText (a : Atom) (text : String) (exponent : Int) : String :=
  if exponent = 1 then text
  else
    (if a.needsParens then parenthesized text else text) ++ "**" ++ toString exponent

/-- A term without its sign, given the texts of its factors with their exponents
made positive. -/
def Poly.termText (c : Scalar) (factors : List (Int × String)) : String :=
  let numer := c.numer.natAbs
  let top := (factors.filter fun f => 0 < f.1).map Prod.snd
  let bottom := (factors.filter fun f => f.1 < 0).map Prod.snd
  let top := if numer ≠ 1 || top.isEmpty then toString numer :: top else top
  let bottom := if c.denom ≠ 1 then toString c.denom :: bottom else bottom
  let topText := "*".intercalate top
  match bottom with
  | [] => topText
  | [single] => topText ++ "/" ++ single
  | _ => topText ++ "/" ++ parenthesized ("*".intercalate bottom)

/-- Joins the texts of terms by their signs. -/
def Poly.joinTerms : List (Scalar × String) → String
  | [] => "0"
  | (c, text) :: rest =>
    (if c.isNegative then "-" ++ text else text) ++
      String.join (rest.map fun (c, text) => (if c.isNegative then " - " else " + ") ++ text)

/-- Sorts terms that carry their texts, and joins them. -/
def Poly.assemble (terms : List ((Monomial × Scalar) × String)) : String :=
  let sorted := terms.mergeSort fun s t => Poly.termCmp s.1 t.1 != .gt
  Poly.joinTerms (sorted.map fun (t, text) => (t.2, text))

mutual

/-- The text of an atom. -/
def Atom.text : Atom → String
  | .var name => name
  | .log p => "log(" ++ p.text ++ ")"
  | .min p q => "Min(" ++ p.text ++ ", " ++ q.text ++ ")"
  | .max p q => "Max(" ++ p.text ++ ", " ++ q.text ++ ")"
  | .exp base p =>
    (if base.isInteger && !base.isNegative then base.text else parenthesized base.text) ++ "**" ++
      (if p.precedence < 4 then parenthesized p.text else p.text)
  | .power p e =>
    if e = .half then "sqrt(" ++ p.text ++ ")"
    else
      (if p.precedence < 4 then parenthesized p.text else p.text) ++ "**" ++
        (if e.isInteger && !e.isNegative then e.text else parenthesized e.text)
  | .unresolved text => text
  | .unknown text => "unknown(" ++ text ++ ")"
termination_by structural a => a

/-- The texts of factors, each with the exponent it had. -/
def Atom.factorTexts : List (Atom × Int) → List (Int × String)
  | [] => []
  | (a, e) :: fs => (e, a.powerText a.text (Int.ofNat e.natAbs)) :: Atom.factorTexts fs
termination_by structural fs => fs

/-- The texts of the factors of a monomial. -/
def Monomial.factorTexts : Monomial → List (Int × String)
  | .ofFactors fs => Atom.factorTexts fs
termination_by structural m => m

/-- The expanded text of a polynomial. -/
def Poly.text : Poly → String
  | .ofTerms ts => Poly.assemble (Poly.termTexts ts)
termination_by structural p => p

/-- Terms with their texts. -/
def Poly.termTexts : List (Monomial × Scalar) → List ((Monomial × Scalar) × String)
  | [] => []
  | (m, c) :: ts => ((m, c), Poly.termText c m.factorTexts) :: Poly.termTexts ts
termination_by structural ts => ts

end

instance : ToString Poly := ⟨Poly.text⟩

/-! ## The factored text -/

namespace Poly

/-- The common factor of the coefficients, with the sign of the leading one. -/
def content (sorted : List (Monomial × Scalar)) : Scalar :=
  match sorted with
  | [] => 1
  | (_, c) :: rest =>
    let g := rest.foldl (fun acc t => acc.gcd t.2) c
    if c.isNegative then -g else g

/-- The variables, with positive exponents, that divide every term. -/
def commonVars (sorted : List (Monomial × Scalar)) : Monomial :=
  match sorted with
  | [] => .one
  | (first, _) :: rest =>
    first.factors.foldl
      (fun acc factor =>
        match factor with
        | (.var name, e) =>
          let shared := rest.foldl (fun least t =>
            let other := t.1.exponentOf (.var name)
            if other < least then other else least) e
          if 0 < shared then acc.mul (.of (.var name) shared) else acc
        | _ => acc)
      .one

/-- The text `c*m*(rest)/d` with the common factor taken out, where there is
one. -/
def factored? (p : Poly) : Option String :=
  if p.terms.length < 2 then none
  else
    let sorted := p.sortedTerms
    let content := content sorted
    let common := commonVars sorted
    if content.isOne && common.isOne then none
    else do
      let reduced (m : Monomial) : Monomial :=
        common.factors.foldl (fun acc (a, e) => acc.mul (.of a (-e))) m
      let rest ← sorted.foldlM
        (fun (acc : Poly) (m, c) => (c.div? content).map fun q => acc.add (term q (reduced m))) zero
      let numer := content.numer.natAbs
      let number := if numer ≠ 1 then [toString numer] else []
      let parts := number ++ common.factorTexts.map Prod.snd ++ [parenthesized rest.text]
      let product := "*".intercalate parts
      let signed := if content.isNegative then "-" ++ product else product
      return if content.denom ≠ 1 then signed ++ "/" ++ toString content.denom else signed

/-- The factored text if it is not longer than the expanded one, which is taken
otherwise. -/
def compactText (p : Poly) : String :=
  let expanded := p.text
  match p.factored? with
  | some factored => if factored.utf8ByteSize ≤ expanded.utf8ByteSize then factored else expanded
  | none => expanded

end Poly

end CostAnalysis
