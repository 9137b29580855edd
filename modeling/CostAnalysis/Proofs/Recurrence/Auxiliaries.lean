import CostAnalysis.Proofs.Source.Calls
import Mathlib.Data.List.Perm.Subperm
import Mathlib.Logic.Relation

/-!
# The procedures that a procedure needs

The work of a recursive procedure includes the procedures that it calls and that
have no self-calls, those that these call, and so on.  `Program.Search` looks
for them; here it is shown to end and to find just these
(`Program.auxiliaries_closure`).

A name counts as met before it is decided whether it is looked into, so that the
names met are not those that are reached: a name may be undefined, or that of a
recursive procedure.  Three facts about a state of the search carry the proof
(`Program.Search.Explored`).

* **What is found is reached** through procedures that may be looked into.
* **What is met and may be looked into is found**, so no such name is passed
  over.
* **Of what is found, all is either pending or looked at**: all names that it
  calls are met.

When nothing is pending these say that what is found is closed under calls.

**It ends** because a procedure is pending once for each time that it is found,
which is once, and the program has only so many procedures
(`Program.Search.Explored.run`).
-/

namespace CostAnalysis.Program

open Relation

/-- A link of a chain of calls that starts from the procedure `f`: `g` calls
`h`, which is the first procedure of its name, is not named like `f` and has no
self-calls. -/
structure Needs (p : Program) (f g h : Function) : Prop where
  calledIn : Stmt.CalledIn h.name g.body
  defined : p.function? h.name = some h
  name_ne : h.name ≠ f.name
  selfCalls_eq : h.selfCalls = []

namespace Search

variable {p : Program} {f g : Function} {busy : List Function} {s : Search} {name : String}

/-- The state of a search from `f` on while the procedures `busy` are looked
at. -/
structure Explored (p : Program) (f : Function) (busy : List Function) (s : Search) : Prop where
  self_mem : f.name ∈ s.seen
  nodup : s.found.Nodup
  seen_of_found : ∀ name ∈ s.found, name ∈ s.seen
  reached : ∀ name ∈ s.found, ∃ g, TransGen (p.Needs f) f g ∧ g.name = name
  pending_reached : ∀ g ∈ s.pending, ReflTransGen (p.Needs f) f g
  found_of_seen : ∀ g, p.function? g.name = some g → g.name ≠ f.name → g.selfCalls = [] →
    g.name ∈ s.seen → g.name ∈ s.found
  looked : ∀ g, g = f ∨ p.function? g.name = some g ∧ g.name ∈ s.found →
    g ∈ busy ∨ g ∈ s.pending ∨ ∀ name, Stmt.CalledIn name g.body → name ∈ s.seen

/-- A name is met before, or it is only marked, or its procedure is found. -/
theorem meet_cases (p : Program) (s : Search) (name : String) :
    name ∈ s.seen ∧ s.meet p name = s ∨
    name ∉ s.seen ∧
      ((∀ g, p.function? name = some g → g.selfCalls ≠ []) ∧
        s.meet p name = { s with seen := name :: s.seen } ∨
      ∃ g, p.function? name = some g ∧ g.selfCalls = [] ∧
        s.meet p name =
          { found := s.found ++ [name], seen := name :: s.seen, pending := g :: s.pending }) := by
  by_cases hseen : name ∈ s.seen
  · exact .inl ⟨hseen, by rw [meet, if_pos (List.contains_iff_mem.mpr hseen)]⟩
  · refine .inr ⟨hseen, ?_⟩
    rw [meet, if_neg (by rwa [List.contains_iff_mem])]
    cases hfunction : p.function? name with
    | none => exact .inl ⟨by simp, rfl⟩
    | some g =>
        by_cases hcalls : g.selfCalls = []
        · refine .inr ⟨g, rfl, hcalls, ?_⟩
          simp [Function.isRecursive, hcalls]
        · refine .inl ⟨by simpa using hcalls, ?_⟩
          simp [Function.isRecursive, hcalls]

/-- A name that is met counts as met from then on. -/
theorem name_mem_meet (p : Program) (s : Search) (name : String) : name ∈ (s.meet p name).seen := by
  rcases meet_cases p s name with ⟨hseen, heq⟩ | ⟨-, ⟨-, heq⟩ | ⟨g, -, -, heq⟩⟩
  · rwa [heq]
  · rw [heq]
    exact List.mem_cons_self
  · rw [heq]
    exact List.mem_cons_self

theorem seen_subset_meet (p : Program) (s : Search) (name : String) :
    s.seen ⊆ (s.meet p name).seen := by
  rcases meet_cases p s name with ⟨-, heq⟩ | ⟨-, ⟨-, heq⟩ | ⟨g, -, -, heq⟩⟩
  · rw [heq]
    exact List.Subset.refl _
  · rw [heq]
    exact List.subset_cons_self _ _
  · rw [heq]
    exact List.subset_cons_self _ _

/-- As many procedures get pending as are found. -/
theorem length_meet (p : Program) (s : Search) (name : String) :
    (s.meet p name).pending.length + s.found.length =
      s.pending.length + (s.meet p name).found.length := by
  rcases meet_cases p s name with ⟨-, heq⟩ | ⟨-, ⟨-, heq⟩ | ⟨g, -, -, heq⟩⟩
  · rw [heq]
  · rw [heq]
  · rw [heq, List.length_cons, List.length_append, List.length_singleton]
    omega

namespace Explored

/-- Nothing is found that is no procedure of the program, nor anything twice. -/
theorem length_found_le (h : Explored p f busy s) : s.found.length ≤ p.functions.length := by
  have hnames : s.found ⊆ p.functions.map Function.name := by
    intro name hname
    obtain ⟨g, hg, rfl⟩ := h.reached name hname
    obtain ⟨k, -, hneeds⟩ := TransGen.tail'_iff.mp hg
    exact List.mem_map_of_mem (mem_of_function? hneeds.defined)
  simpa using (h.nodup.subperm hnames).length_le

/-- A name is only marked as met, since it is undefined or that of a recursive
procedure. -/
theorem mark (h : Explored p f busy s)
    (hrecursive : ∀ g, p.function? name = some g → g.selfCalls ≠ []) :
    Explored p f busy { s with seen := name :: s.seen } :=
  { h with
    self_mem := List.mem_cons_of_mem _ h.self_mem
    seen_of_found := fun m hm => List.mem_cons_of_mem _ (h.seen_of_found m hm)
    found_of_seen := by
      intro g hg hne hcalls hseen
      rcases List.mem_cons.mp hseen with rfl | hseen
      · exact absurd hcalls (hrecursive g hg)
      · exact h.found_of_seen g hg hne hcalls hseen
    looked := fun g hg => (h.looked g hg).imp_right fun hg => hg.imp_right fun hall m hm =>
      List.mem_cons_of_mem _ (hall m hm) }

/-- A procedure that a reached one needs is found, and is pending then. -/
theorem find {k : Function} (h : Explored p f busy s) (hg : ReflTransGen (p.Needs f) f g)
    (hneeds : p.Needs f g k) (hnew : k.name ∉ s.seen) :
    Explored p f busy { found := s.found ++ [k.name], seen := k.name :: s.seen,
                        pending := k :: s.pending } where
  self_mem := List.mem_cons_of_mem _ h.self_mem
  nodup := List.nodup_append.mpr ⟨h.nodup, List.pairwise_singleton _ _, by
    rintro m hm _ hlast rfl
    exact hnew (List.mem_singleton.mp hlast ▸ h.seen_of_found m hm)⟩
  seen_of_found := by
    intro m hm
    rcases List.mem_append.mp hm with hm | hm
    · exact List.mem_cons_of_mem _ (h.seen_of_found m hm)
    · exact List.mem_singleton.mp hm ▸ List.mem_cons_self
  reached := by
    intro m hm
    rcases List.mem_append.mp hm with hm | hm
    · exact h.reached m hm
    · exact ⟨k, .tail' hg hneeds, (List.mem_singleton.mp hm).symm⟩
  pending_reached := List.forall_mem_cons.mpr ⟨hg.tail hneeds, h.pending_reached⟩
  found_of_seen := by
    intro m hm hne hcalls hseen
    rcases List.mem_cons.mp hseen with hmk | hseen
    · exact List.mem_append_right _ (hmk ▸ List.mem_singleton_self _)
    · exact List.mem_append_left _ (h.found_of_seen m hm hne hcalls hseen)
  -- the name that is found is pending, so it has not to be looked into yet
  looked := by
    have hold : ∀ m, m = f ∨ p.function? m.name = some m ∧ m.name ∈ s.found →
        m ∈ busy ∨ m ∈ k :: s.pending ∨
          ∀ name, Stmt.CalledIn name m.body → name ∈ k.name :: s.seen := fun m hm =>
      (h.looked m hm).imp_right (Or.imp (List.mem_cons_of_mem _) fun hall name hname =>
        List.mem_cons_of_mem _ (hall name hname))
    rintro m (rfl | ⟨hm, hmem⟩)
    · exact hold m (.inl rfl)
    · rcases List.mem_append.mp hmem with hmem | hmem
      · exact hold m (.inr ⟨hm, hmem⟩)
      · rw [List.mem_singleton.mp hmem, hneeds.defined] at hm
        exact .inr (.inl (Option.some.inj hm ▸ List.mem_cons_self))

/-- **Meeting a name** that a reached procedure calls. -/
theorem meet (h : Explored p f busy s) (hg : ReflTransGen (p.Needs f) f g)
    (hcalled : Stmt.CalledIn name g.body) : Explored p f busy (s.meet p name) := by
  rcases meet_cases p s name with ⟨-, heq⟩ | ⟨hnew, ⟨hrecursive, heq⟩ | ⟨k, hk, hcalls, heq⟩⟩
  · rwa [heq]
  · rw [heq]
    exact h.mark hrecursive
  · obtain rfl := name_of_function? hk
    have hne : k.name ≠ f.name := fun hname => hnew (hname ▸ h.self_mem)
    rw [heq]
    exact h.find hg ⟨hcalled, hk, hne, hcalls⟩ hnew

/-- Meeting all names that a reached procedure calls. -/
theorem foldl_meet {names : List String} (h : Explored p f busy s)
    (hg : ReflTransGen (p.Needs f) f g) (hnames : ∀ name ∈ names, Stmt.CalledIn name g.body) :
    Explored p f busy (names.foldl (Search.meet p) s) ∧
      s.seen ⊆ (names.foldl (Search.meet p) s).seen ∧
      (∀ name ∈ names, name ∈ (names.foldl (Search.meet p) s).seen) ∧
      (names.foldl (Search.meet p) s).pending.length + s.found.length =
        s.pending.length + (names.foldl (Search.meet p) s).found.length := by
  induction names generalizing s with
  | nil => exact ⟨h, List.Subset.refl _, nofun, rfl⟩
  | cons name names ih =>
      obtain ⟨hname, hnames⟩ := List.forall_mem_cons.mp hnames
      obtain ⟨hexplored, hseen, hmet, hlength⟩ := ih (h.meet hg hname) hnames
      refine ⟨hexplored, List.Subset.trans (seen_subset_meet p s name) hseen, ?_, ?_⟩
      · exact List.forall_mem_cons.mpr ⟨hseen (name_mem_meet p s name), hmet⟩
      · have hstep := length_meet p s name
        rw [List.foldl_cons]
        omega

/-- **One step of the search.** -/
theorem step {rest : List Function} {s' : Search} (h : Explored p f [] s)
    (hpending : s.pending = g :: rest)
    (hs' : s' = (Stmt.calledNames g.body).foldl (Search.meet p) { s with pending := rest }) :
    Explored p f [] s' ∧ s'.pending.length + s.found.length = rest.length + s'.found.length := by
  subst hs'
  have hmem := h.pending_reached
  rw [hpending] at hmem
  obtain ⟨hg, hrest⟩ := List.forall_mem_cons.mp hmem
  -- the procedure that is taken off the front is busy until its calls are met
  have htaken : Explored p f [g] { s with pending := rest } :=
    { h with
      pending_reached := hrest
      looked := by
        intro k hk
        rcases h.looked k hk with hbusy | hk | hall
        · cases hbusy
        · rw [hpending] at hk
          rcases List.mem_cons.mp hk with rfl | hk
          · exact .inl (List.mem_singleton_self _)
          · exact .inr (.inl hk)
        · exact .inr (.inr hall) }
  obtain ⟨hexplored, -, hmet, hlength⟩ :=
    htaken.foldl_meet hg fun name hname => Stmt.mem_calledNames.mp hname
  refine ⟨{ hexplored with looked := fun k hk => .inr ?_ }, hlength⟩
  rcases hexplored.looked k hk with hbusy | hk
  · rw [List.mem_singleton.mp hbusy]
    exact .inr fun name hname => hmet name (Stmt.mem_calledNames.mpr hname)
  · exact hk

/-- **The search ends.** -/
theorem run {fuel : ℕ} (h : Explored p f [] s)
    (hfuel : s.pending.length + p.functions.length ≤ fuel + s.found.length) :
    Explored p f [] (Search.run p fuel s) ∧ (Search.run p fuel s).pending = [] := by
  induction fuel generalizing s with
  | zero =>
      have hfound := h.length_found_le
      rw [Search.run]
      exact ⟨h, List.length_eq_zero_iff.mp (by omega)⟩
  | succ fuel ih =>
      rw [Search.run]
      split
      · next hpending => exact ⟨h, hpending⟩
      · next g rest hpending =>
        obtain ⟨hexplored, hlength⟩ := h.step hpending rfl
        rw [hpending, List.length_cons] at hfuel
        exact ih hexplored (by omega)

/-- At the start nothing is found and the procedure itself is pending; its own
name counts as met, so that it is not found. -/
theorem start (p : Program) (f : Function) :
    Explored p f [] { seen := [f.name], pending := [f] } where
  self_mem := List.mem_singleton_self _
  nodup := List.nodup_nil
  seen_of_found := nofun
  reached := nofun
  pending_reached := List.forall_mem_singleton.mpr .refl
  found_of_seen := fun g _ hne _ hseen => absurd (List.mem_singleton.mp hseen) hne
  looked := by
    rintro g (rfl | ⟨-, hmem⟩)
    · exact .inr (.inl (List.mem_singleton_self _))
    · cases hmem

/-- When nothing is pending, what is needed is found. -/
theorem name_mem_found (h : Explored p f [] s) (hpending : s.pending = [])
    (hg : TransGen (p.Needs f) f g) : g.name ∈ s.found := by
  -- what is called by a procedure that was looked at is met, and so found
  have hnext : ∀ {g k}, g = f ∨ p.function? g.name = some g ∧ g.name ∈ s.found →
      p.Needs f g k → p.function? k.name = some k ∧ k.name ∈ s.found := by
    intro g k hg hneeds
    refine ⟨hneeds.defined, h.found_of_seen k hneeds.defined hneeds.name_ne hneeds.selfCalls_eq ?_⟩
    rcases h.looked g hg with hbusy | hmem | hall
    · cases hbusy
    · rw [hpending] at hmem
      cases hmem
    · exact hall _ hneeds.calledIn
  have hfound : p.function? g.name = some g ∧ g.name ∈ s.found := by
    induction hg with
    | single hneeds => exact hnext (.inl rfl) hneeds
    | tail _ hneeds ih => exact hnext (.inr ih) hneeds
  exact hfound.2

end Explored

/-- A search that has ended stays as it is. -/
theorem run_of_pending_eq_nil (hpending : s.pending = []) (fuel : ℕ) : run p fuel s = s := by
  cases fuel with
  | zero => rfl
  | succ fuel => rw [run, hpending]

/-- A search can be continued. -/
theorem run_add (m n : ℕ) (s : Search) : run p (m + n) s = run p n (run p m s) := by
  induction m generalizing s with
  | zero => rw [Nat.zero_add, run]
  | succ m ih =>
      rw [Nat.succ_add, run, run]
      split
      · next hpending => rw [run_of_pending_eq_nil hpending]
      · exact ih _

end Search

/-- **The auxiliaries of a procedure are what it needs.**  They are listed once
each, without the procedure itself, and are the names at the ends of the chains
of calls from it through procedures without self-calls.  The search has ended
after one step for each procedure of the program and one for the start: then
nothing is pending, and more steps find nothing more. -/
theorem auxiliaries_closure (p : Program) (f : Function) :
    (p.auxiliaries f).Nodup ∧ f.name ∉ p.auxiliaries f ∧
    (∀ name, name ∈ p.auxiliaries f ↔ ∃ g, TransGen (p.Needs f) f g ∧ g.name = name) ∧
    ∀ more, (Search.run p (p.functions.length + 1 + more)
        { seen := [f.name], pending := [f] }).pending = [] ∧
      (Search.run p (p.functions.length + 1 + more)
        { seen := [f.name], pending := [f] }).found = p.auxiliaries f := by
  have hfuel : 1 + p.functions.length ≤ p.functions.length + 1 + 0 := by omega
  obtain ⟨hend, hpending⟩ := (Search.Explored.start p f).run hfuel
  refine ⟨hend.nodup, fun hself => ?_, fun name => ⟨hend.reached name, ?_⟩, fun more => ?_⟩
  · obtain ⟨g, hg, hname⟩ := hend.reached _ hself
    obtain ⟨k, -, hneeds⟩ := TransGen.tail'_iff.mp hg
    exact hneeds.name_ne hname
  · rintro ⟨g, hg, rfl⟩
    exact hend.name_mem_found hpending hg
  · rw [Search.run_add, Search.run_of_pending_eq_nil hpending]
    exact ⟨hpending, rfl⟩

end CostAnalysis.Program
