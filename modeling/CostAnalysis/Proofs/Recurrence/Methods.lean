import CostAnalysis.Recurrence.Solution
import Mathlib.Data.List.Perm.Basic

/-!
# What the methods of solution say together

All methods are tried on a recurrence, and one of them gives the solution.  This
module says which one, and when the others would have given the same.

## From self-described results to an order

Nothing about the order, the names or the bounds is there by construction.  A
method returns a result that names its method, says whether it applies, and may
carry a bound, each in a field of its own; the results of all methods but
substitution are computed first, substitution starts from a bound that is found
among them by name, and its result is then put between the others by position
(`RecurrenceSolution.interleave`).  Three facts bring this into order:

* **Each method describes itself correctly** (`MethodResult.IsOf`): its result
  names that method and has a bound exactly if the method applies.  This is one
  lemma per method, by the branches of its definition.
* **Positions and names agree** (`RecurrenceSolution.interleave_map_filter`):
  the results that remain stand in the order without substitution, so that the
  next one is always that of the method whose place it takes.
* **Looking a result up by its name finds the result of that method**
  (`RecurrenceSolution.preferred?_map`), since the names are right.

From these follows what `RecurrenceSolution.methods_ofRecurrence` says: the
methods of a solution are one answer for each method, in the order
`RecurrenceClass.methodOrder`.  The theorems below work from it and no longer
mention positions.

## Who decides

Substitution is the last preferred method of every class
(`RecurrenceClass.priority_eq`) and always applies, so the first method that
applies is a preferred one.  What substitution starts from is the bound of the
first other preferred method, and with that the two always agree
(`RecurrenceSolution.first_applicable_decides`).

## Agreement

Unless several different subtractions are mixed, whatever applies gives the same
bound (`RecurrenceSolution.complexity_eq_finalSolution`).  The methods share
what decides the bound: for a single division the balance of leaves and work,
for a chain the sum of the work along it, for a branching chain the number of
its calls; for several divisions only the recursion tree applies.
-/

namespace CostAnalysis

/-! ## The order of the methods -/

namespace RecurrenceClass

/-- Substitution is the last resort of every class. -/
theorem priority_eq (c : RecurrenceClass) :
    c.priority = c.priority.filter (· ≠ .substitution) ++ [.substitution] := by
  cases c <;> rfl

/-- Every method has its place in the order. -/
theorem methodOrder_perm (c : RecurrenceClass) : c.methodOrder.Perm Method.all := by
  cases c <;> decide

/-- The preferred methods stand in the order, before the others. -/
theorem mem_methodOrder_of_mem_priority {c : RecurrenceClass} {m : Method} (h : m ∈ c.priority) :
    m ∈ c.methodOrder :=
  List.mem_append_left _ h

end RecurrenceClass

/-! ## What a method returns

A result carries the name of its method, whether that applies, and the bound,
and each method fills these in by itself.  Nothing in the type relates the
three, so that they agree is shown method by method. -/

namespace MethodResult

/-- **A result describes itself correctly** as one of the method `m`: it names
`m`, and it has a bound exactly if it says that the method applies. -/
structure IsOf (result : MethodResult) (m : Method) : Prop where
  method_eq : result.method = m
  applicable_iff : result.applicable = true ↔ result.complexity?.isSome = true

theorem isOf_notApplicable (m : Method) (reason : String) : (notApplicable m reason).IsOf m :=
  ⟨rfl, by simp [notApplicable]⟩

theorem isOf_solved (m : Method) (steps : List String) (complexity explanation : String) :
    (solved m steps complexity explanation).IsOf m :=
  ⟨rfl, by simp [solved]⟩

/-- The case of the master theorem is none of the fields that a result describes
itself by. -/
theorem IsOf.withCase {result : MethodResult} {m : Method} (h : result.IsOf m) (c? : Option Nat) :
    { result with masterCase? := c? }.IsOf m :=
  ⟨h.method_eq, h.applicable_iff⟩

/-- Neither is the tree. -/
theorem IsOf.withTree {result : MethodResult} {m : Method} (h : result.IsOf m)
    (tree? : Option RecursionTree) : { result with tree? := tree? }.IsOf m :=
  ⟨h.method_eq, h.applicable_iff⟩

end MethodResult

section Methods

open MethodResult

variable (settings : RecurrenceSettings) (r : Recurrence)

/-- The three cases of the theorem have a bound, and between them it does not
apply. -/
theorem Master.isOf_solveTerm (a b : Nat) (work : Work) (epsilon : Float) :
    (Master.solveTerm a b work epsilon).IsOf .master := by
  unfold Master.solveTerm
  split
  · exact isOf_notApplicable _ _
  · split
    · exact isOf_notApplicable _ _
    · exact (isOf_solved _ _ _ _).withCase _

/-- The theorem is about a single division, and does not apply to anything
else. -/
theorem Master.isOf_solve : (Master.solve settings r).IsOf .master := by
  unfold Master.solve
  split
  · exact Master.isOf_solveTerm _ _ _ _
  · exact isOf_notApplicable _ _

/-- Unfolding applies to a single term, whether it divides or subtracts. -/
theorem Iteration.isOf_solve : (Iteration.solve settings r).IsOf .iteration := by
  unfold Iteration.solve
  split
  · split
    · unfold Iteration.divide
      split
      · exact isOf_notApplicable _ _
      · exact isOf_solved _ _ _ _
    · unfold Iteration.subtract
      split <;> exact isOf_solved _ _ _ _
  · exact isOf_notApplicable _ _

/-- The characteristic polynomial applies to subtractions. -/
theorem Characteristic.isOf_solve : (Characteristic.solve r).IsOf .characteristic := by
  unfold Characteristic.solve
  split
  · exact isOf_notApplicable _ _
  · split
    · exact isOf_notApplicable _ _
    · exact isOf_solved _ _ _ _

/-! The tree takes a form of its own for each shape of the terms; each form
returns a result of the tree, or the reason why there is none. -/

/-- A tree with one division. -/
theorem Tree.isOf_singleDivision {result : MethodResult}
    (h : Tree.singleDivision settings r = .ok result) : result.IsOf .tree := by
  unfold Tree.singleDivision at h
  split at h
  · cases h
  · dsimp only at h
    split at h <;> cases h
    exact (isOf_solved _ _ _ _).withTree _

/-- A tree with several divisions. -/
theorem Tree.isOf_unevenDivision {result : MethodResult}
    (h : Tree.unevenDivision settings r = .ok result) : result.IsOf .tree := by
  unfold Tree.unevenDivision at h
  split at h <;> cases h
  exact (isOf_solved _ _ _ _).withTree _

/-- A tree with one subtraction and several calls. -/
theorem Tree.isOf_branchingChain {result : MethodResult}
    (h : Tree.branchingChain settings r = .ok result) : result.IsOf .tree := by
  unfold Tree.branchingChain at h
  split at h <;> cases h
  exact (isOf_solved _ _ _ _).withTree _

/-- A tree with several subtractions, which gives a bound from above whatever the
amounts are. -/
theorem Tree.isOf_mixedChain : (Tree.mixedChain settings r).IsOf .tree :=
  (isOf_solved _ _ _ _).withTree _

/-- The forms together, by the shape of the terms. -/
theorem Tree.isOf_derive {result : MethodResult} (h : Tree.derive settings r = .ok result) :
    result.IsOf .tree := by
  unfold Tree.derive at h
  split at h
  · cases h
  · exact Tree.isOf_singleDivision settings r h
  · exact Tree.isOf_singleDivision settings r h
  · exact Tree.isOf_unevenDivision settings r h
  · exact Tree.isOf_unevenDivision settings r h
  · exact Tree.isOf_branchingChain settings r h
  · cases h
    exact Tree.isOf_mixedChain settings r

/-- The tree itself: where there is a reason against it, it does not apply. -/
theorem Tree.isOf_solve : (Tree.solve settings r).IsOf .tree := by
  unfold Tree.solve
  split
  · exact isOf_notApplicable _ _
  · next result hderive =>
    split
    · exact (Tree.isOf_derive settings r hderive).withTree _
    · exact Tree.isOf_derive settings r hderive

/-- Substitution finds a bound whatever it starts from. -/
theorem Substitution.exists_solve_eq (guess? : Option String) :
    ∃ steps complexity explanation, Substitution.solve settings r guess? =
      .solved .substitution steps complexity explanation := by
  unfold Substitution.solve
  split
  · exact ⟨_, _, _, rfl⟩
  · split <;> exact ⟨_, _, _, rfl⟩

/-- Substitution has a bound from every start. -/
theorem Substitution.isOf_solve (guess? : Option String) :
    (Substitution.solve settings r guess?).IsOf .substitution := by
  obtain ⟨steps, complexity, explanation, h⟩ := Substitution.exists_solve_eq settings r guess?
  rw [h]
  exact isOf_solved _ _ _ _

/-- **Substitution always applies.** -/
theorem Substitution.applicable_solve (guess? : Option String) :
    (Substitution.solve settings r guess?).applicable = true := by
  obtain ⟨steps, complexity, explanation, h⟩ := Substitution.exists_solve_eq settings r guess?
  rw [h]
  rfl

/-- The bound that substitution is given is the one that it verifies. -/
theorem Substitution.complexity?_solve_some (guess : String) :
    (Substitution.solve settings r (some guess)).complexity? = some guess := rfl

end Methods

/-! ## The first method that applies

The direct methods are asked in one order and listed in another one, and the
bound that substitution starts from is looked up among what they returned.  As
each result names its own method, asking in an order and filtering is the same
as looking up by name (`preferred?_map`), and what is put back by position comes
to stand where it belongs (`interleave_map_filter`). -/

namespace RecurrenceSolution

open MethodResult

/-- **Positions and names agree.**  If the results that remain are those of the
methods of an order without substitution, each of them is put at the place of
its own method. -/
theorem interleave_map_filter (verified : MethodResult) (f : Method → MethodResult)
    (order : List Method) :
    interleave verified order ((order.filter (· ≠ .substitution)).map f) =
      order.map fun m => if m = .substitution then verified else f m := by
  induction order with
  | nil => rfl
  | cons m order ih =>
      rw [List.map_cons, ← ih]
      cases m <;> rfl

section Lookup

variable {g : Method → MethodResult} {ms : List Method}

/-- A result is found by the name of its method, if the results name their
methods correctly. -/
theorem find?_map_method (hg : ∀ m, (g m).method = m) (m : Method) :
    (ms.map g).find? (fun result => result.method == m) =
      if m ∈ ms then some (g m) else none := by
  induction ms with
  | nil => rfl
  | cons k ms ih =>
      rw [List.map_cons, List.find?_cons, hg k]
      by_cases hk : k = m
      · simp [hk]
      · have hne : (k == m) = false := beq_eq_false_iff_ne.mpr hk
        rw [hne, ih]
        simp [Ne.symm hk]

/-- So the preferred one among some results is the first that applies among
those of the preferred methods. -/
theorem preferred?_map (hg : ∀ m, (g m).method = m) (kind : RecurrenceClass) :
    preferred? kind (ms.map g) =
      ((kind.priority.filter (· ∈ ms)).map g).find? applicable := by
  have hlookup : kind.priority.filterMap
      (fun m => (ms.map g).find? fun result => result.method == m) =
        (kind.priority.filter (· ∈ ms)).map g :=
    calc kind.priority.filterMap (fun m => (ms.map g).find? fun result => result.method == m)
      _ = kind.priority.filterMap (fun m => if m ∈ ms then some (g m) else none) :=
          List.filterMap_congr fun m _ => find?_map_method hg m
      _ = (kind.priority.filter (· ∈ ms)).filterMap (some ∘ g) := by
          simp [List.filterMap_filter]
      _ = (kind.priority.filter (· ∈ ms)).map g := by rw [List.filterMap_eq_map]
  rw [preferred?, hlookup]

end Lookup

variable (settings : RecurrenceSettings) (r : Recurrence)

/-- **Each method describes itself correctly.** -/
theorem isOf_answer (guess? : Option String) (m : Method) :
    (answer settings r guess? m).IsOf m := by
  cases m with
  | master => exact Master.isOf_solve settings r
  | iteration => exact Iteration.isOf_solve settings r
  | tree => exact Tree.isOf_solve settings r
  | characteristic => exact Characteristic.isOf_solve r
  | substitution => exact Substitution.isOf_solve settings r guess?

/-- Only substitution depends on what it starts from. -/
theorem answer_of_ne {m : Method} (hm : m ≠ .substitution) (guess? : Option String) :
    answer settings r guess? m = answer settings r none m := by
  cases m with
  | substitution => exact absurd rfl hm
  | _ => rfl

/-- The result of the first preferred method other than substitution that
applies. -/
def firstDirect? : Option MethodResult :=
  ((r.kind.priority.filter (· ≠ .substitution)).map (answer settings r none)).find? applicable

/-- What substitution starts from. -/
def guess? : Option String :=
  (firstDirect? settings r).bind complexity?

/-- What a method says in a solution, where substitution starts from the bound
of another one. -/
def finalAnswer (m : Method) : MethodResult :=
  answer settings r (guess? settings r) m

theorem isOf_finalAnswer (m : Method) : (finalAnswer settings r m).IsOf m :=
  isOf_answer settings r _ m

theorem finalAnswer_of_ne {m : Method} (hm : m ≠ .substitution) :
    finalAnswer settings r m = answer settings r none m :=
  answer_of_ne settings r hm _

/-- The guess that is found by name among the results without substitution. -/
theorem preferred?_results :
    preferred? r.kind
        ((r.kind.methodOrder.filter (· ≠ .substitution)).map (answer settings r none)) =
      firstDirect? settings r := by
  rw [preferred?_map fun m => (isOf_answer settings r none m).method_eq, firstDirect?]
  have hothers : r.kind.priority.filter (· ∈ r.kind.methodOrder.filter (· ≠ .substitution)) =
      r.kind.priority.filter (· ≠ .substitution) :=
    List.filter_congr fun m hm => by simp [RecurrenceClass.mem_methodOrder_of_mem_priority hm]
  rw [hothers]

/-- **The methods of a solution are one answer for each method, in order.** -/
theorem methods_ofRecurrence (raw : String) (notes : List Note) :
    (ofRecurrence settings raw notes r).methods =
      r.kind.methodOrder.map (finalAnswer settings r) := by
  show interleave (Substitution.solve settings r
    ((preferred? r.kind ((r.kind.methodOrder.filter (· ≠ .substitution)).map
      (answer settings r none))).bind complexity?)) r.kind.methodOrder _ = _
  rw [preferred?_results, interleave_map_filter]
  refine List.map_congr_left fun m _ => ?_
  split
  · next hm => rw [hm]; rfl
  · next hm => exact (finalAnswer_of_ne settings r hm).symm

/-- The answer that gives the solution: that of the first preferred method that
applies, which is substitution if no other does. -/
def best : MethodResult :=
  (firstDirect? settings r).getD (finalAnswer settings r .substitution)

/-- Among the preferred methods the best one is the first that applies. -/
theorem find?_priority :
    (r.kind.priority.map (finalAnswer settings r)).find? applicable = some (best settings r) := by
  have hothers : ∀ m ∈ r.kind.priority.filter (· ≠ .substitution),
      finalAnswer settings r m = answer settings r none m := by
    intro m hm
    exact finalAnswer_of_ne settings r (of_decide_eq_true (List.mem_filter.mp hm).2)
  have hlast : (finalAnswer settings r .substitution).applicable = true :=
    Substitution.applicable_solve settings r _
  rw [RecurrenceClass.priority_eq, List.map_append, List.map_congr_left hothers, List.find?_append,
    List.map_singleton, List.find?_singleton, if_pos hlast, best]
  show (firstDirect? settings r).or _ = _
  cases firstDirect? settings r <;> rfl

/-- The best answer is the one that is looked up by name among the results. -/
theorem preferred?_methods (raw : String) (notes : List Note) :
    preferred? r.kind (ofRecurrence settings raw notes r).methods = some (best settings r) := by
  have hall : r.kind.priority.filter (· ∈ r.kind.methodOrder) = r.kind.priority :=
    List.filter_eq_self.mpr fun m hm =>
      decide_eq_true (RecurrenceClass.mem_methodOrder_of_mem_priority hm)
  rw [methods_ofRecurrence, preferred?_map fun m => (isOf_finalAnswer settings r m).method_eq, hall,
    find?_priority]

/-- The first answer of all that applies is the one that gives the solution,
since the preferred methods stand first and one of them applies. -/
theorem find?_methods (raw : String) (notes : List Note) :
    (ofRecurrence settings raw notes r).methods.find? applicable = some (best settings r) := by
  rw [methods_ofRecurrence, RecurrenceClass.methodOrder, List.map_append, List.find?_append,
    find?_priority]
  rfl

/-- Every result of a solution describes itself correctly. -/
theorem isOf_of_mem_methods {raw : String} {notes : List Note} {result : MethodResult}
    (h : result ∈ (ofRecurrence settings raw notes r).methods) : result.IsOf result.method := by
  rw [methods_ofRecurrence] at h
  obtain ⟨m, -, rfl⟩ := List.mem_map.mp h
  rw [(isOf_finalAnswer settings r m).method_eq]
  exact isOf_finalAnswer settings r m

/-- The method of a solution is the one that the best result names. -/
theorem bestMethod_ofRecurrence (raw : String) (notes : List Note) :
    (ofRecurrence settings raw notes r).bestMethod = (best settings r).method := by
  have hbest := preferred?_methods settings r raw notes
  unfold ofRecurrence at hbest ⊢
  dsimp only at hbest ⊢
  rw [hbest]

/-- The solution is the bound of that answer. -/
theorem complexity?_best (raw : String) (notes : List Note) :
    (best settings r).complexity? = some (ofRecurrence settings raw notes r).finalSolution := by
  have hmem := List.mem_of_find?_eq_some (find?_methods settings r raw notes)
  have hsome := (isOf_of_mem_methods settings r hmem).applicable_iff.mp
    (List.find?_some (find?_methods settings r raw notes))
  have hfinal : (ofRecurrence settings raw notes r).finalSolution =
      (best settings r).complexity?.getD "" := by
    have hbest := preferred?_methods settings r raw notes
    unfold ofRecurrence at hbest ⊢
    dsimp only at hbest ⊢
    rw [hbest]
  rw [hfinal]
  obtain ⟨c, hc⟩ := Option.isSome_iff_exists.mp hsome
  rw [hc, Option.getD_some]

/-- **Substitution confirms the solution.**  If another preferred method
applies, substitution starts from its bound; else substitution gives the
solution itself. -/
theorem complexity?_finalAnswer_substitution :
    (finalAnswer settings r .substitution).complexity? = (best settings r).complexity? := by
  cases hdirect : firstDirect? settings r with
  | none => rw [best, hdirect, Option.getD_none]
  | some first =>
      have hmem := List.mem_of_find?_eq_some hdirect
      obtain ⟨m, -, rfl⟩ := List.mem_map.mp hmem
      obtain ⟨c, hc⟩ := Option.isSome_iff_exists.mp
        ((isOf_answer settings r none m).applicable_iff.mp (List.find?_some hdirect))
      have hguess : guess? settings r = some c := by rw [guess?, hdirect, Option.bind_some, hc]
      rw [best, hdirect, Option.getD_some, hc, finalAnswer, hguess]
      exact Substitution.complexity?_solve_some settings r c

/-- **The first method that applies decides the solution**, and substitution
always confirms it.  The methods stand in the order of preference, each of them
once, and one applies exactly if it has a bound. -/
theorem first_applicable_decides (raw : String) (notes : List Note) :
    (ofRecurrence settings raw notes r).methods.map MethodResult.method =
        r.kind.priority ++ Method.all.filter (fun m => !r.kind.priority.contains m) ∧
      ((ofRecurrence settings raw notes r).methods.map MethodResult.method).Perm Method.all ∧
      (∀ result ∈ (ofRecurrence settings raw notes r).methods,
        result.applicable = true ↔ result.complexity?.isSome = true) ∧
      (∀ result ∈ (ofRecurrence settings raw notes r).methods, result.method = .substitution →
        result.applicable = true ∧
          result.complexity? = some (ofRecurrence settings raw notes r).finalSolution) ∧
      ∃ first, (ofRecurrence settings raw notes r).methods.find? MethodResult.applicable =
          some first ∧
        (ofRecurrence settings raw notes r).bestMethod = first.method ∧
        first.complexity? = some (ofRecurrence settings raw notes r).finalSolution := by
  have horder : (ofRecurrence settings raw notes r).methods.map MethodResult.method =
      r.kind.methodOrder := by
    have hname : MethodResult.method ∘ finalAnswer settings r = id :=
      funext fun m => (isOf_finalAnswer settings r m).method_eq
    rw [methods_ofRecurrence, List.map_map, hname, List.map_id]
  refine ⟨horder, horder ▸ r.kind.methodOrder_perm,
    fun result hresult => (isOf_of_mem_methods settings r hresult).applicable_iff, ?_, ?_⟩
  · intro result hresult hmethod
    rw [methods_ofRecurrence] at hresult
    obtain ⟨m, -, rfl⟩ := List.mem_map.mp hresult
    rw [(isOf_finalAnswer settings r m).method_eq] at hmethod
    subst hmethod
    have hcomplexity : (finalAnswer settings r .substitution).complexity? =
        some (ofRecurrence settings raw notes r).finalSolution := by
      rw [complexity?_finalAnswer_substitution, complexity?_best settings r raw notes]
    exact ⟨Substitution.applicable_solve settings r _, hcomplexity⟩
  · exact ⟨best settings r, find?_methods settings r raw notes,
      bestMethod_ofRecurrence settings r raw notes, complexity?_best settings r raw notes⟩

/-- The characteristic equation is preferred for a chain, but work of unknown
growth leaves it to unfolding. -/
theorem first_applicable_decides_verbatimWork :
    let s := ofRecurrence {} "" [] ⟨.chain, [⟨1, .subtraction, 1⟩], .verbatim "n!"⟩
    s.methods.map MethodResult.method =
        [.characteristic, .iteration, .substitution, .master, .tree] ∧
      s.bestMethod = .iteration ∧
      ∀ result ∈ s.methods, result.method = .substitution →
        result.complexity? = some s.finalSolution := by
  obtain ⟨horder, -, -, hsubstitution, first, hfirst, hbest, -⟩ :=
    first_applicable_decides {} ⟨.chain, [⟨1, .subtraction, 1⟩], .verbatim "n!"⟩ "" []
  have hiteration : ((ofRecurrence {} "" []
      ⟨.chain, [⟨1, .subtraction, 1⟩], .verbatim "n!"⟩).methods.find?
        MethodResult.applicable).map MethodResult.method = some .iteration := by
    decide +kernel
  rw [hfirst] at hiteration
  exact ⟨horder, hbest.trans (Option.some.inj hiteration),
    fun result hresult hmethod => (hsubstitution result hresult hmethod).2⟩

end RecurrenceSolution

/-! ## Agreement

For the recurrences that are treated as what they are, one bound can be said
beforehand (`Recurrence.sharedBound?`), by cases of the terms alone.  Each
method that applies returns it, and so does the summary, whichever of them it
takes. -/

namespace RecurrenceClass

/-- What a class says about the terms, for all classes but that of mixed
subtractions. -/
theorem classify_cases {terms : List RecursiveTerm} {c : RecurrenceClass}
    (h : classify terms = .ok c) (hc : c ≠ .mixedChain) :
    (∃ t, terms = [t] ∧ t.kind = .division ∧ (c = .singleDivision ∨ c = .equalDivision)) ∨
      ((∀ t, terms ≠ [t]) ∧ (c = .twoDivisions ∨ c = .manyDivisions)) ∨
      (∃ t, terms = [t] ∧ t.kind = .subtraction ∧
        (t.coefficient = 1 ∧ c = .chain ∨ t.coefficient ≠ 1 ∧ c = .branchingChain)) := by
  cases terms with
  | nil => cases h
  | cons t ts =>
      unfold classify at h
      dsimp only at h
      split at h
      · cases h
      · split at h <;> cases h
        · refine Or.inl ⟨t, rfl, ‹_›, ?_⟩
          by_cases hone : t.coefficient = 1 <;> simp [hone]
        · exact Or.inr (Or.inl ⟨by simp, Or.inl rfl⟩)
        · next hmany _ _ =>
          exact Or.inr (Or.inl ⟨by simpa using hmany, Or.inr rfl⟩)
        · refine Or.inr (Or.inr ⟨t, rfl, ‹_›, ?_⟩)
          by_cases hone : t.coefficient = 1 <;> simp [hone]
        · exact absurd rfl hc

end RecurrenceClass

namespace Recurrence

/-- The growth of a chain of `n/b` calls, or of the calls of a branching one. -/
def chainGrowth (t : RecursiveTerm) (work : Work) : Growth :=
  if t.coefficient = 1 then (Iteration.linearChain t.amount work).1
  else Iteration.branchingGrowth t.coefficient t.amount work

/-- What decides the bound, whatever the method, where subtractions are not
mixed. -/
def sharedBound? (settings : RecurrenceSettings) (r : Recurrence) : Option String :=
  match r.terms with
  | [t] =>
    match t.kind with
    | .division =>
      (Balance.of? t.coefficient t.amount r.work settings.masterEpsilon).map Balance.complexity
    | .subtraction => some (thetaOf (chainGrowth t r.work).text)
  | _ => some (Tree.unevenSum settings r.terms r.work).2.1

/-- A recurrence that is treated as what it is, and does not mix
subtractions. -/
structure Uniform (r : Recurrence) : Prop where
  classified : RecurrenceClass.classify r.terms = .ok r.kind
  unmixed : r.kind ≠ .mixedChain

variable {settings : RecurrenceSettings} {r : Recurrence} {c : String}

theorem sharedBound?_division {t : RecursiveTerm} {b : Balance} (hterms : r.terms = [t])
    (hkind : t.kind = .division)
    (hb : Balance.of? t.coefficient t.amount r.work settings.masterEpsilon = some b) :
    sharedBound? settings r = some b.complexity := by
  simp only [sharedBound?, hterms, hkind, hb, Option.map_some]

theorem sharedBound?_subtraction {t : RecursiveTerm} (hterms : r.terms = [t])
    (hkind : t.kind = .subtraction) :
    sharedBound? settings r = some (thetaOf (chainGrowth t r.work).text) := by
  simp only [sharedBound?, hterms, hkind]

/-- Several terms are decided by the sum over the levels of the tree. -/
theorem sharedBound?_uneven (hterms : ∀ t, r.terms ≠ [t]) :
    sharedBound? settings r = some (Tree.unevenSum settings r.terms r.work).2.1 := by
  rw [sharedBound?]
  split
  · next t heq => exact absurd heq (hterms t)
  · rfl

/-! ### One method at a time

Each method comes to its bound in a way of its own.  The lemmas have the same
statement for each of them: what it returns is the shared bound, or it does not
apply. -/

/-- The master theorem compares the leaves with the work. -/
theorem master_bound (hr : r.Uniform) (h : (Master.solve settings r).complexity? = some c) :
    .master ∈ r.kind.priority ∧ sharedBound? settings r = some c := by
  unfold Master.solve at h
  split at h
  · next t ts hcovers hterms =>
    unfold Master.solveTerm at h
    split at h
    · cases h
    · next b hb =>
      -- regularity decides whether the theorem applies, not which bound it
      -- gives
      have hc : c = b.complexity := by
        split at h <;> cases h
        rfl
      rcases RecurrenceClass.classify_cases hr.classified hr.unmixed with
        ⟨u, hu, hkind, hclass⟩ | ⟨-, hclass⟩ | ⟨u, -, -, hclass⟩
      · rw [hterms] at hu
        cases hu
        rw [hc]
        refine ⟨?_, sharedBound?_division hterms hkind hb⟩
        rcases hclass with hclass | hclass <;> rw [hclass] <;> decide
      · rcases hclass with hclass | hclass <;> rw [hclass] at hcovers <;> cases hcovers
      · rcases hclass with ⟨-, hclass⟩ | ⟨-, hclass⟩ <;> rw [hclass] at hcovers <;> cases hcovers
  · cases h

/-- Unfolding compares the leaves with the work, or follows the chain of
calls. -/
theorem iteration_bound (hr : r.Uniform) (h : (Iteration.solve settings r).complexity? = some c) :
    .iteration ∈ r.kind.priority ∧ sharedBound? settings r = some c := by
  unfold Iteration.solve at h
  split at h
  · next t hterms =>
    -- one term, of either kind; more than one is not solved by iteration
    rcases RecurrenceClass.classify_cases hr.classified hr.unmixed with
      ⟨u, hu, hkind, hclass⟩ | ⟨hmany, -⟩ | ⟨u, hu, hkind, hclass⟩
    · rw [hterms] at hu
      cases hu
      rw [if_pos (by simp [RecursiveTerm.isDivision, hkind])] at h
      unfold Iteration.divide at h
      split at h
      · cases h
      · next b hb =>
        cases h
        refine ⟨?_, sharedBound?_division hterms hkind hb⟩
        rcases hclass with hclass | hclass <;> rw [hclass] <;> decide
    · exact absurd hterms (hmany t)
    · rw [hterms] at hu
      cases hu
      rw [if_neg (by simp [RecursiveTerm.isDivision, hkind]), Iteration.subtract] at h
      rw [sharedBound?_subtraction hterms hkind, chainGrowth]
      rcases hclass with ⟨hone, hclass⟩ | ⟨hmore, hclass⟩
      · rw [if_pos hone] at h ⊢
        rw [hclass]
        exact ⟨by decide, h⟩
      · rw [if_neg hmore] at h ⊢
        rw [hclass]
        exact ⟨by decide, h⟩
  · cases h

/-- The tree has the bound of what it is read off; its diagram changes
nothing. -/
theorem exists_derive_of_solve (h : (Tree.solve settings r).complexity? = some c) :
    ∃ result, Tree.derive settings r = .ok result ∧ result.complexity? = some c := by
  unfold Tree.solve at h
  split at h
  · cases h
  · next result hderive =>
    refine ⟨result, hderive, ?_⟩
    split at h <;> exact h

/-- The recursion tree compares its levels, or counts the calls of a branching
chain. -/
theorem tree_bound (hr : r.Uniform) (h : (Tree.solve settings r).complexity? = some c) :
    .tree ∈ r.kind.priority ∧ sharedBound? settings r = some c := by
  obtain ⟨result, h, hcomplexity⟩ := exists_derive_of_solve h
  rw [← hcomplexity]
  -- a single division, several divisions, or a single subtraction
  rcases RecurrenceClass.classify_cases hr.classified hr.unmixed with
    ⟨t, hterms, hkind, hclass⟩ | ⟨hmany, hclass⟩ | ⟨t, hterms, hkind, hclass⟩
  · have hsingle : Tree.singleDivision settings r = .ok result := by
      rcases hclass with hclass | hclass <;> rwa [Tree.derive, hclass] at h
    simp only [Tree.singleDivision, hterms] at hsingle
    split at hsingle
    · cases hsingle
    · next b hb =>
      cases hsingle
      refine ⟨?_, sharedBound?_division hterms hkind hb⟩
      rcases hclass with hclass | hclass <;> rw [hclass] <;> decide
  · have huneven : Tree.unevenDivision settings r = .ok result := by
      rcases hclass with hclass | hclass <;> rwa [Tree.derive, hclass] at h
    unfold Tree.unevenDivision at huneven
    split at huneven
    · cases huneven
    · cases huneven
      refine ⟨?_, sharedBound?_uneven hmany⟩
      rcases hclass with hclass | hclass <;> rw [hclass] <;> decide
  · rcases hclass with ⟨-, hclass⟩ | ⟨hmore, hclass⟩
    · rw [Tree.derive, hclass] at h
      cases h
    · rw [Tree.derive, hclass] at h
      simp only [Tree.branchingChain, hterms] at h
      cases h
      rw [sharedBound?_subtraction hterms hkind, chainGrowth, if_neg hmore, hclass]
      exact ⟨by decide, rfl⟩

/-- What the characteristic equation concludes for a single term: a root of one
leaves the work along the chain, any other root the number of calls. -/
theorem conclusion_single (t : RecursiveTerm) (work : Work) (root : Float) :
    (Characteristic.conclusion [t] work root).2.1 = thetaOf (chainGrowth t work).text := by
  unfold Characteristic.conclusion
  rw [chainGrowth]
  by_cases hone : t.coefficient = 1
  · simp only [if_pos hone]
  · simp only [if_neg hone]

/-- The characteristic equation leaves the work along a chain, or the calls of a
branching one. -/
theorem characteristic_bound (hr : r.Uniform) (h : (Characteristic.solve r).complexity? = some c) :
    .characteristic ∈ r.kind.priority ∧ sharedBound? settings r = some c := by
  unfold Characteristic.solve at h
  split at h
  · cases h
  · next hdivision =>
    split at h
    · cases h
    · cases h
      rcases RecurrenceClass.classify_cases hr.classified hr.unmixed with
        ⟨t, -, -, hclass⟩ | ⟨-, hclass⟩ | ⟨t, hterms, hkind, hclass⟩
      · rcases hclass with hclass | hclass <;> exact absurd (by rw [hclass]; rfl) hdivision
      · rcases hclass with hclass | hclass <;> exact absurd (by rw [hclass]; rfl) hdivision
      · rw [sharedBound?_subtraction hterms hkind, hterms]
        refine ⟨?_,
          congrArg some (conclusion_single t r.work (Characteristic.dominantRoot [t])).symm⟩
        rcases hclass with ⟨-, hclass⟩ | ⟨-, hclass⟩ <;> rw [hclass] <;> decide

/-- **One method at a time, the bound is the same**: any other method than
substitution that applies is a preferred one, and has the shared bound. -/
theorem answer_bound (hr : r.Uniform) {m : Method} (hm : m ≠ .substitution)
    (h : (RecurrenceSolution.answer settings r none m).complexity? = some c) :
    m ∈ r.kind.priority ∧ sharedBound? settings r = some c := by
  cases m with
  | master => exact master_bound hr h
  | iteration => exact iteration_bound hr h
  | tree => exact tree_bound hr h
  | characteristic => exact characteristic_bound hr h
  | substitution => exact absurd rfl hm

end Recurrence

namespace RecurrenceSolution

variable {settings : RecurrenceSettings} {r : Recurrence}

/-- If another method than substitution applies, the solution is the shared
bound: a preferred method applies then, and the first of them gives the
solution. -/
theorem complexity?_best_of_uniform (hr : r.Uniform) {m : Method} (hne : m ≠ .substitution)
    {c : String} (h : (answer settings r none m).complexity? = some c) :
    (best settings r).complexity? = Recurrence.sharedBound? settings r := by
  obtain ⟨hpriority, -⟩ := Recurrence.answer_bound hr hne h
  have hmem : answer settings r none m ∈
      (r.kind.priority.filter (· ≠ .substitution)).map (answer settings r none) :=
    List.mem_map_of_mem (List.mem_filter.mpr ⟨hpriority, decide_eq_true hne⟩)
  have happlicable : (answer settings r none m).applicable = true := by
    rw [(isOf_answer settings r none m).applicable_iff, h]
    rfl
  obtain ⟨first, hfirst⟩ : ∃ first, firstDirect? settings r = some first :=
    Option.isSome_iff_exists.mp (List.find?_isSome.mpr ⟨_, hmem, happlicable⟩)
  obtain ⟨k, hk, rfl⟩ := List.mem_map.mp (List.mem_of_find?_eq_some hfirst)
  obtain ⟨d, hd⟩ := Option.isSome_iff_exists.mp
    ((isOf_answer settings r none k).applicable_iff.mp (List.find?_some hfirst))
  obtain ⟨-, hshared⟩ :=
    Recurrence.answer_bound hr (of_decide_eq_true (List.mem_filter.mp hk).2) hd
  rw [best, hfirst, Option.getD_some, hd, hshared]

/-- The agreement for a recurrence that is treated as what it is. -/
theorem complexity_eq_of_uniform (hr : r.Uniform) (raw : String) (notes : List Note)
    {result : MethodResult} (hresult : result ∈ (ofRecurrence settings raw notes r).methods)
    (happlicable : result.applicable = true) :
    result.complexity? = some (ofRecurrence settings raw notes r).finalSolution := by
  rw [← complexity?_best settings r raw notes]
  rw [methods_ofRecurrence] at hresult
  obtain ⟨m, -, rfl⟩ := List.mem_map.mp hresult
  by_cases hne : m = .substitution
  · rw [hne, complexity?_finalAnswer_substitution]
  · rw [finalAnswer_of_ne settings r hne] at happlicable ⊢
    obtain ⟨c, hc⟩ :=
      Option.isSome_iff_exists.mp ((isOf_answer settings r none m).applicable_iff.mp happlicable)
    rw [complexity?_best_of_uniform hr hne hc, hc, (Recurrence.answer_bound hr hne hc).2]

/-- **The methods agree**: unless several subtractions are mixed, every method
that applies to a classified recurrence gives the bound of the solution. -/
theorem complexity_eq_finalSolution (settings : RecurrenceSettings) (raw : String)
    {terms : List RecursiveTerm} {c : RecurrenceClass}
    (hclass : RecurrenceClass.classify terms = .ok c) (hc : c ≠ .mixedChain) (work : Work)
    (notes : List Note) :
    ∀ result ∈ (ofTerms settings raw terms work notes).methods, result.applicable = true →
      result.complexity? = some (ofTerms settings raw terms work notes).finalSolution := by
  intro result hresult happlicable
  have hr : Recurrence.Uniform { kind := c, terms, work } := ⟨hclass, hc⟩
  simp only [ofTerms, hclass] at hresult ⊢
  exact complexity_eq_of_uniform hr raw notes hresult happlicable

/-- Three calls on a problem smaller by two: the characteristic equation,
unfolding and the tree agree with the solution. -/
theorem complexity_eq_finalSolution_branching :
    RecurrenceClass.classify [⟨3, .subtraction, 2⟩] = .ok .branchingChain ∧
      RecurrenceClass.branchingChain ≠ .mixedChain ∧
      ∀ m ∈ [Method.characteristic, .iteration, .tree],
        ∃ result ∈ (ofTerms {} "" [⟨3, .subtraction, 2⟩] Work.constant []).methods,
          result.method = m ∧ result.applicable = true ∧ result.complexity? =
            some (ofTerms {} "" [⟨3, .subtraction, 2⟩] Work.constant []).finalSolution := by
  have hclass : RecurrenceClass.classify [⟨3, .subtraction, 2⟩] = .ok .branchingChain := by decide
  have hagree := complexity_eq_finalSolution {} "" hclass (by decide) Work.constant []
  refine ⟨hclass, by decide, ?_⟩
  have happly : ∀ m ∈ [Method.characteristic, .iteration, .tree],
      ∃ result ∈ (ofTerms {} "" [⟨3, .subtraction, 2⟩] Work.constant []).methods,
        result.method = m ∧ result.applicable = true := by
    decide +kernel
  intro m hm
  obtain ⟨result, hresult, hmethod, happlicable⟩ := happly m hm
  exact ⟨result, hresult, hmethod, happlicable, hagree result hresult happlicable⟩

end RecurrenceSolution

end CostAnalysis
