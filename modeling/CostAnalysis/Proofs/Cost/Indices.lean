import CostAnalysis.Cost.Nodes
import CostAnalysis.Proofs.Reading

/-!
# The indices of loops

Inside a loop its variable goes by another name, the index of a sum.  The names
for indices are few and are used again at every place of the same depth, so what
keeps two variables apart has to be said: at a place whose indices were all
chosen by `Surroundings.freshIndex` (`Surroundings.WellNamed`), the next index
is none of the names in use (`freshIndex_not_mem`), none of the indices around
(`freshIndex_ne_index`), and hence no name that a variable there is renamed to
(`rename_ne_freshIndex`).

Names of the form `v0`, `v1`, ... are taken where the list of names is used up.
These are not checked against the names in use, so that no variable has such a
name is asked for.

**What this is for.**  A summation binds its index, and a bound in its body that
has the index for a free variable would be captured.  That it has not is what
`WellNamed` is kept for along a path of scopes; the simulation of costs by sums
asks for nothing else about names.
-/

namespace CostAnalysis.Surroundings

/-- The index that is taken at a depth where the list of names is used up. -/
def numberedIndex (depth : ℕ) : String :=
  "v" ++ toString depth

/-- Different depths have different numbered indices. -/
theorem numberedIndex_injective : Function.Injective numberedIndex := by
  intro d e h
  have hdigits : Nat.toDigits 10 d = Nat.toDigits 10 e := by
    have hlist := congrArg String.toList h
    simpa [numberedIndex, Nat.toString_eq_repr, Nat.toList_repr] using hlist
  rw [← Nat.ofDigitChars_ten_toDigits (n := d), hdigits, Nat.ofDigitChars_ten_toDigits]

/-- A numbered index begins with a letter that others may not begin with. -/
theorem numberedIndex_not_mem {names : List String}
    (h : ∀ name ∈ names, name.toList.head? ≠ some 'v') (depth : ℕ) :
    numberedIndex depth ∉ names := by
  intro hmem
  exact h _ hmem (by simp [numberedIndex])

/-! ## Places with one more scope -/

variable (s : Surroundings) (r : LoopRange)

/-- A loop adds its range to those around. -/
@[simp] theorem ranges_inside_loop : (s.inside (.loop r)).ranges = r :: s.ranges := rfl

/-- A variable of a loop goes by the index of the loop, and all others as
outside. -/
theorem rename_inside_loop (name : String) :
    (s.inside (.loop r)).rename name =
      if r.sourceVar? = some name then r.index else s.rename name := by
  by_cases h : r.sourceVar? = some name
  · simp [rename, h]
  · simp [rename, beq_eq_false_iff_ne.mpr h, h]

/-- A counting loop is the innermost one inside of it; a loop with a condition
leaves that as it is.
-/
theorem countedIndex?_inside_loop :
    (s.inside (.loop r)).countedIndex? =
      if r.kind = .counted then some r.index else s.countedIndex? := by
  by_cases h : r.kind = .counted
  · simp [countedIndex?, h]
  · simp [countedIndex?, beq_eq_false_iff_ne.mpr h, h]

/-! ## Fresh indices

An index is taken from a list of names, the first that is free from the depth of
the place on, or numbered by the depth where the list is used up.  Both ways
give a name that is new: the first by the search, the second because no other
index has that number. -/

/-- All indices around were taken from the list, or numbered by a smaller depth,
and no name in use looks like a numbered one. -/
structure WellNamed : Prop where
  reserved : ∀ depth, numberedIndex depth ∉ s.reserved
  index : ∀ r ∈ s.ranges, r.index ∈ indexNames ∨
    ∃ depth < s.ranges.length, r.index = numberedIndex depth

variable {s r}

/-- The two ways in which an index is chosen. -/
theorem freshIndex_cases :
    (s.freshIndex ∈ indexNames ∧ s.freshIndex ∉ s.reserved ∧
      ∀ r ∈ s.ranges, r.index ≠ s.freshIndex) ∨
    s.freshIndex = numberedIndex s.ranges.length := by
  -- either a listed name is free, and is checked to be so, or the list is used
  -- up
  cases hfind : (indexNames.drop s.ranges.length).find? fun name =>
      !(s.reserved.contains name || s.ranges.any fun r => r.index == name) with
  | none =>
      right
      simp only [freshIndex, hfind]
      rfl
  | some name =>
      left
      have hfresh : s.freshIndex = name := by simp only [freshIndex, hfind]
      have hmem := List.mem_of_find?_eq_some hfind
      have hfree := List.find?_some hfind
      simp only [Bool.not_or, Bool.and_eq_true, Bool.not_eq_true', List.any_eq_false,
        beq_iff_eq] at hfree
      rw [hfresh]
      refine ⟨List.mem_of_mem_drop hmem, ?_, hfree.2⟩
      intro hreserved
      simp [hreserved] at hfree

namespace WellNamed

/-- **The next index is no name in use**. -/
theorem freshIndex_not_mem (hs : s.WellNamed) : s.freshIndex ∉ s.reserved := by
  rcases freshIndex_cases (s := s) with ⟨-, hreserved, -⟩ | hnumbered
  · exact hreserved
  · rw [hnumbered]
    exact hs.reserved _

theorem freshIndex_ne_index (hs : s.WellNamed) : ∀ r ∈ s.ranges, r.index ≠ s.freshIndex := by
  rcases freshIndex_cases (s := s) with ⟨-, -, hindices⟩ | hnumbered
  · exact hindices
  · intro r hr heq
    rw [hnumbered] at heq
    rcases hs.index r hr with hlisted | ⟨depth, hdepth, hindex⟩
    · exact numberedIndex_not_mem (by decide) _ (heq ▸ hlisted)
    · rw [hindex] at heq
      exact absurd (numberedIndex_injective heq) (Nat.ne_of_lt hdepth)

/-- The size of the input is no index. -/
theorem freshIndex_ne_size (s : Surroundings) : s.freshIndex ≠ "n" := by
  rcases freshIndex_cases (s := s) with ⟨hlisted, -, -⟩ | hnumbered
  · intro heq
    rw [heq] at hlisted
    exact absurd hlisted (by decide)
  · have hsize : numberedIndex s.ranges.length ∉ ["n"] := numberedIndex_not_mem (by decide) _
    rw [hnumbered]
    exact List.ne_of_not_mem_cons hsize

/-- No variable goes by the next index, be it one of a loop around or one in
use. -/
theorem rename_ne_freshIndex (hs : s.WellNamed) {name : String}
    (hname : name ∈ s.reserved ∨ ∃ r ∈ s.ranges, r.sourceVar? = some name) :
    s.rename name ≠ s.freshIndex := by
  rw [rename]
  split
  · next r hr => exact hs.freshIndex_ne_index r (List.mem_of_find?_eq_some hr)
  · next hnone =>
    rintro rfl
    rcases hname with hreserved | ⟨r, hr, hvar⟩
    · exact hs.freshIndex_not_mem hreserved
    · have hother := List.find?_eq_none.mp hnone r hr
      rw [hvar] at hother
      exact hother (beq_self_eq_true _)

/-- What holds outside a loop whose index is fresh holds inside. -/
theorem inside_loop (hs : s.WellNamed) (hr : r.index = s.freshIndex) :
    (s.inside (.loop r)).WellNamed := by
  refine ⟨hs.reserved, ?_⟩
  intro q hq
  rw [ranges_inside_loop, List.length_cons]
  rcases List.mem_cons.mp hq with rfl | hq
  · rw [hr]
    rcases freshIndex_cases (s := s) with ⟨hlisted, -, -⟩ | hnumbered
    · exact Or.inl hlisted
    · exact Or.inr ⟨_, Nat.lt_succ_self _, hnumbered⟩
  · rcases hs.index q hq with hlisted | ⟨depth, hdepth, hindex⟩
    · exact Or.inl hlisted
    · exact Or.inr ⟨depth, Nat.lt_succ_of_lt hdepth, hindex⟩

end WellNamed

end CostAnalysis.Surroundings
