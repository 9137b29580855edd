import CostAnalysis.Proofs.ClosedSum
import CostAnalysis.Proofs.Formula.Laurent

/-!
# Arithmetic formulas are in order

The closed form of an arithmetic formula has no other atoms than variables, and
these are ordered by their names.  So its monomials are listed in a linear
order, whatever the formula is made of (`Arithmetic.listedOver`), and an
arithmetic formula is in order (`Arithmetic.inOrder`).

**What a note excludes.**  A fragment is no variable, and neither is a summation
that was left without a closed form.  Both are noted, and so are the overflows
that a node is quoted for.

**Induction over constructors.**  Sums, products and powers keep a list of terms
in order because the order of monomials over variables is linear; a quotient has
a number for its divisor, and scales coefficients.  A summation is the one case
with some work in it: the index is split off, and a sum of powers of the bounds
takes its place.
-/

namespace CostAnalysis

/-! ## Sums over an index

The closed form of a term is a product of what does not mention the index and a
difference of two values of one polynomial, at the bounds.  All of these are
over variables if the term is. -/

section

variable {K : Atom → Prop} {p start stop body : Poly} {m : Monomial} {c : Scalar} {index : String}

/-- The sum of powers up to a bound is listed where the bound is. -/
theorem Summation.listedOver_powerSum (h : Assoc.LinearOn K) (hp : p.ListedOver K) (k : ℕ) :
    (powerSum k p).ListedOver K := by
  rw [powerSum]
  refine Poly.Listed.scale ?_ _
  refine List.foldlRecOn _ _ (Poly.listed_zero _) fun acc hacc j _ => ?_
  simp only
  split
  · exact hacc
  · exact hacc.add (Monomial.linearOn_listed h)
      ((hp.powNat (Monomial.linearOn_listed h) (Monomial.listed_one K) (.mul h) _).scale _)

/-- **One term.**  No factor of a product of variables is an exponential, so it
is a power of the index that is summed. -/
theorem Summation.listedOver_termSum? (hm : ∀ f ∈ m.factors, f.1.IsVar)
    (hstart : start.ListedOver Atom.IsVar) (hstop : stop.ListedOver Atom.IsVar)
    (hp : termSum? c m index start stop = some p) : p.ListedOver Atom.IsVar := by
  have hlinear := Monomial.linearOn_listed Atom.linearOn_isVar
  have hrest : ∀ f ∈ (m.splitVar index).2.factors, f.1.IsVar := fun f hf =>
    hm f (Assoc.mem_of_mem_erase (fun a' h => (Atom.eq_of_cmp _ a' h).symm) hf)
  have houter : (Poly.term c (((m.splitVar index).2.factors.filter fun factor =>
      !factor.1.mentions index).foldl (fun acc factor => acc.mul (.of factor.1 factor.2))
        Monomial.one)).ListedOver Atom.IsVar := by
    refine Poly.listed_term c (List.foldlRecOn _ _ (Monomial.listed_one _) fun acc hacc f hf => ?_)
    exact hacc.mul Atom.linearOn_isVar
      (Monomial.listed_of (hrest f (List.mem_of_mem_filter hf)) f.2)
  simp only [termSum?] at hp
  split at hp
  · obtain ⟨-, hp⟩ := Option.ite_none_right_eq_some.mp hp
    cases hp
    have hone := Poly.listedOver_constant Atom.IsVar 1
    exact houter.mul hlinear (.mul Atom.linearOn_isVar)
      ((listedOver_powerSum Atom.linearOn_isVar hstop _).sub hlinear
        (listedOver_powerSum Atom.linearOn_isVar (hstart.sub hlinear hone) _))
  · next base exponent times hdependent =>
      have hfactor : (Atom.exp base exponent, times) ∈ (m.splitVar index).2.factors := by
        refine List.mem_of_mem_filter (p := fun factor => factor.1.mentions index) ?_
        rw [hdependent]
        exact List.mem_cons_self
      -- a term of variables alone has no exponential factor
      obtain ⟨v, hv⟩ := hrest _ hfactor
      cases hv
  · cases hp

/-- **All terms.**  Where nothing is left without a closed form, the value is a
sum of those of the terms. -/
theorem Poly.ListedOver.sumOver (hbody : body.ListedOver Atom.IsVar)
    (hstart : start.ListedOver Atom.IsVar) (hstop : stop.ListedOver Atom.IsVar)
    (h : (body.sumOver index start stop).unresolved = []) :
    (body.sumOver index start stop).value.ListedOver Atom.IsVar := by
  obtain ⟨ts⟩ := body
  have hts : ∀ t ∈ ts, t.1.Listed Atom.IsVar := hbody.monomials
  have hloop : ∀ outcome : SumOutcome, outcome.value.ListedOver Atom.IsVar →
      (ts.foldl (SumOutcome.addTerm index start stop) outcome).unresolved = [] →
      (ts.foldl (SumOutcome.addTerm index start stop) outcome).value.ListedOver Atom.IsVar := by
    clear h hbody
    induction ts with
    | nil => exact fun _ hvalue _ => hvalue
    | cons t ts ih =>
        intro outcome hvalue h
        obtain ⟨ht, hts⟩ := List.forall_mem_cons.mp hts
        obtain ⟨-, p, hp, hadd⟩ := addTerm_of_unresolved (unresolved_of_foldl_addTerm h)
        have hterm := Summation.listedOver_termSum? ht.keys hstart hstop hp
        exact ih hts _
          (hadd ▸ hvalue.add (Monomial.linearOn_listed Atom.linearOn_isVar) hterm) h
  exact hloop ⟨zero, []⟩ (listed_zero _) h

end

namespace Formula

variable {e : Formula}

/-! ## Every constructor -/

/-- **The closed form is listed over variables.**  The induction is over the
formula; there is no bound on the exponents, since a clamped one keeps its
place. -/
theorem Arithmetic.listedOver (he : e.Arithmetic) (hquiet : e.Quiet) :
    e.closedForm.ListedOver Atom.IsVar := by
  have hlinear := Monomial.linearOn_listed Atom.linearOn_isVar
  have hone := Poly.listedOver_constant Atom.IsVar 1
  induction he with
  | num q =>
      rw [closedForm_num_of_exact rfl]
      exact Poly.listedOver_constant Atom.IsVar _
  | var name => exact Poly.listedOver_ofAtom (Atom.isVar_var name)
  | @plus ts _ ih =>
      obtain ⟨hts, hclosed⟩ := hquiet.plus
      rw [hclosed]
      exact List.foldlRecOn ts _ (Poly.listed_zero _) fun _ hacc t ht =>
        hacc.add hlinear (ih t ht (hts t ht))
  | @times fs _ ih =>
      obtain ⟨hfs, hclosed⟩ := hquiet.times
      rw [hclosed]
      exact List.foldlRecOn fs _ hone fun _ hacc f hf =>
        hacc.mul hlinear (.mul Atom.linearOn_isVar) (ih f hf (hfs f hf))
  | minus _ ih =>
      obtain ⟨ha, hclosed⟩ := hquiet.minus
      rw [hclosed]
      exact (ih ha).neg
  | quotient _ hq hnum hden ih =>
      obtain ⟨ha, -, hclosed⟩ := hquiet.quotient
      rw [hclosed, closedForm_num_of_exact rfl, div_constant hq hnum hden]
      exact (ih ha).scale _
  | raised _ hk ih =>
      obtain ⟨ha, -, hclosed⟩ := hquiet.raised
      rw [hclosed, closedForm_num_of_exact rfl, power_natCast hk]
      exact (ih ha).powNat hlinear (Monomial.listed_one _) (.mul Atom.linearOn_isVar) _
  | sumOver _ _ _ ihbody ihstart ihstop =>
      obtain ⟨hbody, hstart, hstop, hunresolved, hclosed⟩ := hquiet.sumOver
      rw [hclosed]
      exact (ihbody hbody).sumOver (ihstart hstart) (ihstop hstop) hunresolved

/-- **An arithmetic formula is in order**, as all that enters its closed form
is. -/
theorem Arithmetic.inOrder (he : e.Arithmetic) (hquiet : e.Quiet) : e.InOrder Atom.IsVar := by
  induction he with
  | num q => exact .num _
  | var name => exact .var (Atom.isVar_var name)
  | plus _ ih => exact .plus fun t ht => ih t ht (hquiet.plus.1 t ht)
  | times _ ih => exact .times fun f hf => ih f hf (hquiet.times.1 f hf)
  | minus _ ih => exact .minus (ih hquiet.minus.1)
  | quotient ha hq hnum hden ih =>
      exact .quotient (ih hquiet.quotient.1) (.num _)
        ((Arithmetic.quotient ha hq hnum hden).listedOver hquiet)
  | raised ha hk ih =>
      exact .raised (ih hquiet.raised.1) (.num _) ((Arithmetic.raised ha hk).listedOver hquiet)
  | sumOver hbody hstart hstop =>
      exact .sumOver ((Arithmetic.sumOver hbody hstart hstop).listedOver hquiet)

end Formula

end CostAnalysis
