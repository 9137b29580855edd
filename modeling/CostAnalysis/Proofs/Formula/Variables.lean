import CostAnalysis.Proofs.Formula.ClosedForm
import CostAnalysis.Proofs.Poly.Variables
import CostAnalysis.Proofs.Simplification

/-!
# Closed forms have no index

The variables of a closed form are free in the formula
(`Formula.freeVars_simplify_subset`).  The index of a summation is free only
where it occurs outside of the summation, and its bounds are outside, so an
index that has no other use is gone from the result.

**Shadowing.**  The statement that goes through the formula has the indices of
the enclosing summations as a parameter: of a part, every variable of the closed
form is one of them or occurs in the part and belongs to none of its own
summations (`varsIn_reduce`).  A summation adds its index for the body alone.
Whether the name was in the list before makes no difference, and this is all
that there is to shadowing.

**By way of polynomials.**  The closed form of a node is an operation on the
closed forms of its parts, and no operation brings in a variable
(`Poly.VarsIn`).  What is left for this induction is where indices are bound.
-/

namespace CostAnalysis

theorem Poly.mem_freeVars {p : Poly} {v : String} : v ∈ p.freeVars ↔ v ∈ p.vars :=
  Assoc.mem_sortedSet fun _ _ h => (Std.LawfulEqOrd.eq_of_compare h).symm

namespace Formula

/-- A variable is free if it occurs outside of all summations over it. -/
theorem mem_freeVars {e : Formula} {v : String} : v ∈ e.freeVars ↔ v ∈ e.varsOutside [] :=
  Assoc.mem_sortedSet fun _ _ h => (Std.LawfulEqOrd.eq_of_compare h).symm

/-- An index of an enclosing summation, or a variable that is free in the
formula. -/
def BoundOrFree (bound : List String) (e : Formula) (v : String) : Prop :=
  v ∈ bound ∨ v ∈ e.varsOutside bound

variable {bound : List String}

/-- A node that overflowed is quoted, and has no variables then. -/
theorem varsIn_guardOverflow (e : Formula) {S : String → Prop} {r : Simplified}
    (hr : r.poly.VarsIn S) :
    (guardOverflow e r).poly.VarsIn S := by
  rw [guardOverflow]
  split
  · exact Poly.varsIn_unknown _
  · exact hr

/-- What is free in a part is free in the formula, where the part adds no
index. -/
theorem boundOrFree_of_mem {part e : Formula}
    (h : ∀ v ∈ part.varsOutside bound, v ∈ e.varsOutside bound) :
    ∀ v, BoundOrFree bound part v → BoundOrFree bound e v :=
  fun v hv => hv.imp_right (h v)

/-- A variable of one formula of a list is one of the list. -/
theorem varsOutside_subset_list {e : Formula} {es : List Formula} (he : e ∈ es) :
    ∀ v ∈ e.varsOutside bound, v ∈ listVarsOutside bound es := by
  intro v hv
  induction es with
  | nil => cases he
  | cons e' es ih =>
      rw [listVarsOutside, List.mem_append]
      rcases List.mem_cons.mp he with rfl | he
      · exact Or.inl hv
      · exact Or.inr (ih he)

mutual

/-- Every variable of the closed form of a part is the index of an enclosing
summation or free in the part. -/
theorem varsIn_reduce (levels depth : ℕ) (bound : List String) : ∀ e : Formula,
    (reduce levels depth e).poly.VarsIn (BoundOrFree bound e)
  | .num v => varsIn_guardOverflow _ (Poly.varsIn_constant v)
  | .var name => Poly.varsIn_ofAtom (a := .var name) fun v hv => by
      obtain rfl := List.mem_singleton.mp hv
      by_cases hbound : v ∈ bound
      · exact Or.inl hbound
      · exact Or.inr (by simp [varsOutside, hbound])
  | .resolved p => varsIn_guardOverflow _ fun v hv => by
      by_cases hbound : v ∈ bound
      · exact Or.inl hbound
      · exact Or.inr (by simpa [varsOutside, hbound] using Poly.mem_freeVars (p := p).mpr hv)
  | .unknown t => Poly.varsIn_unknown t
  | .plus ts => varsIn_guardOverflow _
      (varsIn_reduceSum levels depth bound ts _ Poly.varsIn_zero fun e he =>
        boundOrFree_of_mem (varsOutside_subset_list he))
  | .times fs => varsIn_guardOverflow _
      (varsIn_reduceProduct levels depth bound fs _ Poly.varsIn_one fun e he =>
        boundOrFree_of_mem (varsOutside_subset_list he))
  | .over a b => varsIn_guardOverflow _ (Poly.VarsIn.div
      ((varsIn_reduce levels depth bound a).mono
        (boundOrFree_of_mem fun _ => List.mem_append_left _))
      ((varsIn_reduce levels depth bound b).mono
        (boundOrFree_of_mem fun _ => List.mem_append_right _)))
  | .raised a b => varsIn_guardOverflow _ (Poly.VarsIn.power
      ((varsIn_reduce levels depth bound a).mono
        (boundOrFree_of_mem fun _ => List.mem_append_left _))
      ((varsIn_reduce levels depth bound b).mono
        (boundOrFree_of_mem fun _ => List.mem_append_right _)))
  | .minus a => varsIn_guardOverflow _ (varsIn_reduce levels depth bound a).neg
  | .logOf a => varsIn_guardOverflow _ (varsIn_reduce levels depth bound a).log
  | .minOf a b => varsIn_guardOverflow _ (Poly.VarsIn.minWith
      ((varsIn_reduce levels depth bound a).mono
        (boundOrFree_of_mem fun _ => List.mem_append_left _))
      ((varsIn_reduce levels depth bound b).mono
        (boundOrFree_of_mem fun _ => List.mem_append_right _)))
  | .maxOf a b => varsIn_guardOverflow _ (Poly.VarsIn.maxWith
      ((varsIn_reduce levels depth bound a).mono
        (boundOrFree_of_mem fun _ => List.mem_append_left _))
      ((varsIn_reduce levels depth bound b).mono
        (boundOrFree_of_mem fun _ => List.mem_append_right _)))
  | .sumOver body index start stop => by
      refine varsIn_guardOverflow _ ?_
      rw [poly_resolveSum]
      refine Poly.VarsIn.sumOver ?_
        ((varsIn_reduce levels depth bound start).mono (boundOrFree_of_mem fun v hv => ?_))
        ((varsIn_reduce levels depth bound stop).mono (boundOrFree_of_mem fun v hv => ?_))
      · -- in the body the index is bound as well
        refine (varsIn_reduce levels (depth + 1) (index :: bound) body).mono fun v hv => ?_
        rcases hv with hv | hv
        · exact (List.mem_cons.mp hv).imp_right Or.inl
        · exact Or.inr (Or.inr (List.mem_append_right _ hv))
      · exact List.mem_append_left _ (List.mem_append_left _ hv)
      · exact List.mem_append_left _ (List.mem_append_right _ hv)
termination_by structural e => e

/-- A sum brings together the variables of its addends. -/
theorem varsIn_reduceSum (levels depth : ℕ) (bound : List String) {S : String → Prop} :
    ∀ (es : List Formula) (acc : Simplified), acc.poly.VarsIn S →
      (∀ e ∈ es, ∀ v, BoundOrFree bound e v → S v) → (reduceSum levels depth acc es).poly.VarsIn S
  | [], _, hacc, _ => hacc
  | e :: es, _, hacc, hes => by
      obtain ⟨he, hes⟩ := List.forall_mem_cons.mp hes
      exact varsIn_reduceSum levels depth bound es _
        (hacc.add ((varsIn_reduce levels depth bound e).mono he)) hes
termination_by structural es => es

theorem varsIn_reduceProduct (levels depth : ℕ) (bound : List String) {S : String → Prop} :
    ∀ (es : List Formula) (acc : Simplified), acc.poly.VarsIn S →
      (∀ e ∈ es, ∀ v, BoundOrFree bound e v → S v) →
        (reduceProduct levels depth acc es).poly.VarsIn S
  | [], _, hacc, _ => hacc
  | e :: es, _, hacc, hes => by
      obtain ⟨he, hes⟩ := List.forall_mem_cons.mp hes
      exact varsIn_reduceProduct levels depth bound es _
        (hacc.mul ((varsIn_reduce levels depth bound e).mono he)) hes
termination_by structural es => es

end

/-- **No index is left.**  The variables of a closed form are free in the
formula, and a name that is not free in it, such as an index without any other
use, occurs in no atom at any depth. -/
theorem freeVars_simplify_subset (e : Formula) :
    e.simplify.poly.freeVars ⊆ e.freeVars ∧
      ∀ name ∉ e.freeVars, name ∉ e.simplify.poly.vars := by
  have hvars : ∀ v ∈ e.simplify.poly.vars, v ∈ e.freeVars := fun v hv =>
    mem_freeVars.mpr ((varsIn_reduce e.sumDepth 0 [] e v hv).resolve_left List.not_mem_nil)
  exact ⟨fun v hv => hvars v (Poly.mem_freeVars.mp hv), fun name hname hmem =>
    hname (hvars name hmem)⟩

/-- The index of `shadowedSum` is that of both of its summations and stands in a
bound of the inner one.  It is not free, and the closed form has `n` only. -/
theorem freeVars_simplify_shadowedSum :
    shadowedSum.freeVars = ["n"] ∧ shadowedSum.simplify.poly.freeVars ⊆ ["n"] ∧
      "i" ∉ shadowedSum.freeVars ∧ "i" ∉ shadowedSum.simplify.poly.vars := by
  have hfree : shadowedSum.freeVars = ["n"] := by decide +kernel
  obtain ⟨hsubset, hindex⟩ := freeVars_simplify_subset shadowedSum
  rw [hfree] at hsubset hindex ⊢
  exact ⟨rfl, hsubset, by decide, hindex "i" (by decide)⟩

end Formula

end CostAnalysis
