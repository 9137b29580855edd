import CostAnalysis.Algebra.ClosedForm
import CostAnalysis.Cost.Report
import CostAnalysis.Proofs.Cost.Indices
import CostAnalysis.Proofs.Cost.Renaming
import CostAnalysis.Source.Parser

/-!
# Names of loop variables

The index of a sum is chosen by the depth of its loop, so that the name of the
variable in the source should not matter.

**Where names do not matter.**  Two things in a cost can depend on a name.  A
name that some loop runs over is not reserved.  So if the renamed loop was the
only one over `x`, then `x` becomes reserved if it is used elsewhere, and a loop
that had it for its index gets another one.  And a bound that is no formula is
kept as its text, in which the variable goes by its name in the source.  If
neither happens the costs are the same formulas
(`CostReport.total_renamesLoop`).

**Aligned places.**  The proof goes through the two programs at the same time.
`Surroundings.Aligned` says that at two places the same indices are in use, that
the same names but for `x` are reserved, and that each variable goes by the same
index on both sides.  It is kept by entering a loop (`Aligned.inside_counted`,
`Aligned.inside_renamed`), and bounds at aligned places have the same formulas
(`Aligned.bound`).
-/

namespace CostAnalysis

/-! ## Aligned places

The two programs are walked at the same time, and at each place the same names
are free for an index, so that the same one is chosen.  Inside the renamed loop
a third fact is needed, that the variable goes by that index on both sides,
under its old name on the one and the new one on the other. -/

namespace Surroundings

/-- Whether an index may have the name. -/
def isFree (s : Surroundings) (name : String) : Bool :=
  !(s.reserved.contains name || s.ranges.any fun r => r.index == name)

theorem isFree_iff (s : Surroundings) (name : String) :
    s.isFree name = true ↔ name ∉ s.reserved ∧ name ∉ s.ranges.map LoopRange.index := by
  simp [isFree]

/-- The next index is the first free name of the list from the depth on, or a
numbered one. -/
theorem freshIndex_eq_getD (s : Surroundings) :
    s.freshIndex =
      ((indexNames.drop s.ranges.length).find? s.isFree).getD (numberedIndex s.ranges.length) := by
  have hfree : (fun name => !(s.reserved.contains name || s.ranges.any fun r => r.index == name)) =
      s.isFree := rfl
  simp only [freshIndex, hfree]
  cases (indexNames.drop s.ranges.length).find? s.isFree <;> rfl

/-- A search among fewer names finds what it found before, if that is still
there. -/
theorem find?_eq_of_imp {p q : String → Bool} {names : List String}
    (hqp : ∀ z, q z = true → p z = true)
    (hpq : ∀ z, names.find? p = some z → q z = true) : names.find? q = names.find? p := by
  induction names with
  | nil => rfl
  | cons name names ih =>
      cases hp : p name with
      | true =>
          have hfound : (name :: names).find? p = some name := List.find?_cons_of_pos hp
          rw [hfound, List.find?_cons_of_pos (hpq name hfound)]
      | false =>
          have hq : ¬q name = true := fun hq => by simp [hqp name hq] at hp
          have hskip : (name :: names).find? p = names.find? p := by
            rw [List.find?_cons_of_neg (by simp [hp])]
          rw [hskip, List.find?_cons_of_neg hq]
          exact ih fun z hz => hpq z (hskip.trans hz)

/-- Two places, the second one after a loop over `x` was made one over `y`,
where `ρ` is what happened to the variables there: the indices around are the
same, no name but `x` is reserved at only one of them, and each variable goes by
the same name. -/
structure Aligned (x y : String) (ρ : String → String) (s s' : Surroundings) : Prop where
  renames : Renames x y ρ
  indices : s'.ranges.map LoopRange.index = s.ranges.map LoopRange.index
  counted : s'.countedIndex? = s.countedIndex?
  reserved : ∀ z, z ≠ x → (z ∈ s'.reserved ↔ z ∈ s.reserved)
  kept : x ∈ s.reserved → x ∈ s'.reserved
  rename : ∀ z, z ≠ y → s'.rename (ρ z) = s.rename z

namespace Aligned

variable {x y : String} {ρ : String → String} {s s' : Surroundings}

theorem inside_yes (h : Aligned x y ρ s s') : Aligned x y ρ (s.inside .yes) (s'.inside .yes) :=
  ⟨h.renames, h.indices, h.counted, h.reserved, h.kept, h.rename⟩

theorem inside_no (h : Aligned x y ρ s s') : Aligned x y ρ (s.inside .no) (s'.inside .no) :=
  ⟨h.renames, h.indices, h.counted, h.reserved, h.kept, h.rename⟩

/-- A loop gets the same index, unless that is `x` and `x` is no longer free. -/
theorem freshIndex (h : Aligned x y ρ s s')
    (hx : x ∈ s'.reserved → x ∉ s.reserved → s.freshIndex ≠ x) :
    s'.freshIndex = s.freshIndex := by
  have hdepth : s'.ranges.length = s.ranges.length := by
    simpa using congrArg List.length h.indices
  have hfind : (indexNames.drop s.ranges.length).find? s'.isFree =
      (indexNames.drop s.ranges.length).find? s.isFree := by
    -- a name is free here if it is there, except perhaps `x`, which the
    -- hypothesis excludes
    refine find?_eq_of_imp (fun z hz => ?_) (fun z hz => ?_)
    · rw [isFree_iff, h.indices] at hz
      rw [isFree_iff]
      refine ⟨fun hmem => hz.1 ?_, hz.2⟩
      by_cases hzx : z = x
      · rw [hzx] at hmem ⊢
        exact h.kept hmem
      · exact (h.reserved z hzx).mpr hmem
    · have hfree := (isFree_iff s z).mp (List.find?_some hz)
      rw [isFree_iff, h.indices]
      refine ⟨fun hmem => hfree.1 ?_, hfree.2⟩
      by_cases hzx : z = x
      · have hfresh : s.freshIndex = x := by
          rw [freshIndex_eq_getD, hz, Option.getD_some, hzx]
        rw [hzx] at hmem ⊢
        by_contra hnot
        exact hx hmem hnot hfresh
      · exact (h.reserved z hzx).mp hmem
  rw [freshIndex_eq_getD, freshIndex_eq_getD, hdepth, hfind]

/-- Entering a loop, given what becomes of the variables inside it. -/
theorem inside_loop (h : Aligned x y ρ s s') {ρ' : String → String} (hρ' : Renames x y ρ')
    {r r' : LoopRange} (hindex : r'.index = r.index) (hkind : r'.kind = r.kind)
    (hrename : ∀ z, z ≠ y →
      (s'.inside (.loop r')).rename (ρ' z) = (s.inside (.loop r)).rename z) :
    Aligned x y ρ' (s.inside (.loop r)) (s'.inside (.loop r')) where
  renames := hρ'
  indices := by
    rw [ranges_inside_loop, ranges_inside_loop, List.map_cons, List.map_cons, hindex, h.indices]
  counted := by
    rw [countedIndex?_inside_loop, countedIndex?_inside_loop, hkind, hindex, h.counted]
  reserved := h.reserved
  kept := h.kept
  rename := hrename

/-- Entering a loop over the same variable on both sides. -/
theorem inside_counted (h : Aligned x y ρ s s') {r r' : LoopRange} (hindex : r'.index = r.index)
    (hkind : r'.kind = r.kind) {var : String} (hvar : r.sourceVar? = some var)
    (hvar' : r'.sourceVar? = some var) (hy : var ≠ y) :
    Aligned x y (Function.update ρ var var) (s.inside (.loop r)) (s'.inside (.loop r')) := by
  refine h.inside_loop (h.renames.hide var) hindex hkind fun z hz => ?_
  rw [rename_inside_loop, rename_inside_loop, hvar, hvar', hindex]
  by_cases hzvar : var = z
  · rw [← hzvar, Function.update_self, if_pos rfl, if_pos rfl]
  · -- what `z` became is not the variable of this loop either
    have hρ : var ≠ ρ z := by
      rcases h.renames z with heq | ⟨-, heq⟩
      · rwa [heq]
      · rwa [heq]
    rw [Function.update_of_ne (Ne.symm hzvar), if_neg (fun heq => hρ (Option.some.inj heq)),
      if_neg (fun heq => hzvar (Option.some.inj heq))]
    exact h.rename z hz

/-- Entering a loop outside the one that is renamed. -/
theorem inside_same (h : Aligned x y id s s') {r r' : LoopRange} (hindex : r'.index = r.index)
    (hkind : r'.kind = r.kind) {var : String} (hvar : r.sourceVar? = some var)
    (hvar' : r'.sourceVar? = some var) (hy : var ≠ y) :
    Aligned x y id (s.inside (.loop r)) (s'.inside (.loop r')) := by
  have hinside := h.inside_counted hindex hkind hvar hvar' hy
  rwa [update_id_self] at hinside

/-- Entering a loop with a condition. -/
theorem inside_conditional (h : Aligned x y ρ s s') {r r' : LoopRange}
    (hindex : r'.index = r.index) (hkind : r'.kind = r.kind) (hvar : r.sourceVar? = none)
    (hvar' : r'.sourceVar? = none) :
    Aligned x y ρ (s.inside (.loop r)) (s'.inside (.loop r')) := by
  refine h.inside_loop h.renames hindex hkind fun z hz => ?_
  rw [rename_inside_loop, rename_inside_loop, hvar, hvar', if_neg (by simp), if_neg (by simp)]
  exact h.rename z hz

/-- Entering the loop whose variable is renamed. -/
theorem inside_renamed (h : Aligned x y id s s') {r r' : LoopRange} (hindex : r'.index = r.index)
    (hkind : r'.kind = r.kind) (hvar : r.sourceVar? = some x) (hvar' : r'.sourceVar? = some y) :
    Aligned x y (Function.update id x y) (s.inside (.loop r)) (s'.inside (.loop r')) := by
  refine h.inside_loop (.single x y) hindex hkind fun z hz => ?_
  rw [rename_inside_loop, rename_inside_loop, hvar, hvar', hindex]
  by_cases hzx : z = x
  · rw [hzx, Function.update_self, if_pos rfl, if_pos rfl]
  · rw [Function.update_of_ne hzx, id_eq, if_neg (fun heq => hz (Option.some.inj heq).symm),
      if_neg (fun heq => hzx (Option.some.inj heq).symm)]
    exact h.rename z hz

/-- A bound has the same formula, or the same text stands for it. -/
theorem bound (h : Aligned x y ρ s s') {e : Expr} (hy : y ∉ e.names)
    (htext : (e.mapVars ρ).opaqueText? = e.opaqueText?) :
    (Stmt.bound s' (e.mapVars ρ)).1 = (Stmt.bound s e).1 := by
  have hformula : (e.mapVars ρ).formula? s'.rename = e.formula? s.rename :=
    Expr.formula?_mapVars e fun z hz => h.rename z fun hzy => hy (hzy ▸ hz)
  rw [Stmt.bound, Stmt.bound, hformula]
  cases he : e.formula? s.rename with
  | some f => rfl
  | none =>
      have hnone : ∀ e' : Expr, e'.formula? id = none → e'.opaqueText? = some e'.compactText :=
        fun e' h' => by rw [Expr.opaqueText?, h']; rfl
      have hid : ∀ (e' : Expr) (g : String → String), e'.formula? g = none →
          e'.formula? id = none := by
        intro e' g h'
        rw [← Option.not_isSome_iff_eq_none, Expr.isSome_formula? id g, h']
        decide
      rw [hnone _ (hid _ _ (hformula.trans he)), hnone _ (hid _ _ he)] at htext
      exact congrArg Formula.unknown (Option.some.inj htext)

end Aligned

end Surroundings

/-! ## Costs

A renaming is harmless where neither the old nor the new name is caught by
something else (`Stmt.Harmless`).  For statements outside of the loop nothing
changes; for those inside, the expressions do, and the two induction steps are
`nodes_mapVars_fst` and `RenamesLoop.blockNodes_fst`. -/

/-- The same range for a loop over another variable. -/
def LoopRange.over (r : LoopRange) (var : String) : LoopRange :=
  { r with sourceVar? := some var }

/-- No loop has the name for its index. -/
def NodeCost.Avoids (name : String) (n : NodeCost) : Prop :=
  ∀ r ∈ n.range?, r.index ≠ name

namespace Stmt

/-- The name neither occurs in the expressions of the statement nor is run over
by it. -/
def Omits (name : String) (st : Stmt) : Prop :=
  st.loopVar? ≠ some name ∧ name ∉ Expr.namesAll st.expressions

/-- What is asked for when a loop over `x` is made one over `y` and `sts` become
`sts'`: `y` is a new name; no loop has the index `x` if that was a name for an
index and is one no more; and the bounds that are no formulas read the same. -/
structure Harmless (x y : String) (reserved reserved' : List String) (sts sts' : List Stmt)
    (entries : List NodeCost) : Prop where
  omits : ∀ t ∈ sts, t.Omits y
  avoids : x ∈ reserved' → x ∉ reserved → ∀ n ∈ entries, n.Avoids x
  texts : opaqueTexts sts' = opaqueTexts sts

section Harmless

variable {x y : String} {reserved reserved' : List String} {a a' b b' : List Stmt}
  {m n : List NodeCost}

/-- What is harmless for two groups of statements together is so for each of
them. -/
theorem Harmless.split (h : Harmless x y reserved reserved' (a ++ b) (a' ++ b') (m ++ n))
    (ha : List.Forall₂ (Renamed x y) a a') :
    Harmless x y reserved reserved' a a' m ∧ Harmless x y reserved reserved' b b' n := by
  have htexts := h.texts
  rw [opaqueTexts_append, opaqueTexts_append] at htexts
  obtain ⟨hleft, hright⟩ := List.append_inj htexts (length_opaqueTexts ha)
  exact ⟨⟨fun t ht => h.omits t (List.mem_append_left _ ht),
      fun hx hx' e he => h.avoids hx hx' e (List.mem_append_left _ he), hleft⟩,
    ⟨fun t ht => h.omits t (List.mem_append_right _ ht),
      fun hx hx' e he => h.avoids hx hx' e (List.mem_append_right _ he), hright⟩⟩

/-- A statement and those in it. -/
theorem Harmless.cons {st st' : Stmt} {e : NodeCost}
    (h : Harmless x y reserved reserved' (st :: b) (st' :: b') (e :: n))
    (hst : Renamed x y st st') :
    Harmless x y reserved reserved' [st] [st'] [e] ∧ Harmless x y reserved reserved' b b' n :=
  Harmless.split (a := [st]) (m := [e]) h (.cons hst .nil)

end Harmless

variable {rules : CostRules} {x y : String} {ρ : String → String} {s s' : Surroundings}

open Surroundings

/-- The entry of a loop tells that its index is kept. -/
theorem Harmless.freshIndex (h : Aligned x y ρ s s') {sts sts' : List Stmt} {e : NodeCost}
    (hloop : Harmless x y s.reserved s'.reserved sts sts' [e]) {r : LoopRange}
    (he : e.range? = some r) (hr : r.index = s.freshIndex) : s'.freshIndex = s.freshIndex :=
  h.freshIndex fun hx hx' => hr ▸ hloop.avoids hx hx' e List.mem_cons_self r he

/-- The ranges of a loop at aligned places differ at most in the names of the
variables. -/
theorem Harmless.rangeOf (h : Aligned x y ρ s s') {l : LineSpan} {var var' : String}
    {start start' stop stop' : Expr} {body body' : Block} {e : NodeCost}
    (hloop : Harmless x y s.reserved s'.reserved [.forLoop l var start stop body]
      [.forLoop l var' start' stop' body'] [e])
    (he : e.range? = some (rangeOf s var start stop))
    (hstart : start' = start.mapVars ρ) (hstop : stop' = stop.mapVars ρ) :
    Stmt.rangeOf s' var' start' stop' = (Stmt.rangeOf s var start stop).over var' := by
  obtain ⟨-, hy⟩ := hloop.omits _ List.mem_cons_self
  have hnames : ∀ e ∈ [start, stop], y ∉ e.names := fun e he hmem =>
    hy (Expr.mem_namesAll he hmem)
  obtain ⟨hstartText, hstopText⟩ : start'.opaqueText? = start.opaqueText? ∧
      stop'.opaqueText? = stop.opaqueText? := by
    simpa [opaqueTexts, bounds] using hloop.texts
  subst hstart hstop
  have hfirst := h.bound (hnames start (by simp)) hstartText
  have hlast := h.bound (hnames stop (by simp)) hstopText
  simp only [Stmt.rangeOf, countedRange, LoopRange.over, hfirst, hlast, hloop.freshIndex h he rfl]

/-- At aligned places loops with a condition have the same range. -/
theorem Harmless.conditionalRange (h : Aligned x y ρ s s') {sts sts' : List Stmt} {e : NodeCost}
    (hloop : Harmless x y s.reserved s'.reserved sts sts' [e])
    (he : e.range? = some (conditionalRange rules s)) :
    Stmt.conditionalRange rules s' = Stmt.conditionalRange rules s := by
  simp only [Stmt.conditionalRange, h.counted, hloop.freshIndex h he rfl]

/-- A counting loop costs the same if its range and its body do. -/
theorem nodes_forLoop_congr {l : LineSpan} {var var' : String} {start stop start' stop' : Expr}
    {body body' : Block}
    (hrange : rangeOf s' var' start' stop' = (rangeOf s var start stop).over var')
    (hbody : blockCost rules (s'.inside (.loop (rangeOf s' var' start' stop'))) body' =
      blockCost rules (s.inside (.loop (rangeOf s var start stop))) body) :
    (nodes rules s' (.forLoop l var' start' stop' body')).1 =
      (nodes rules s (.forLoop l var start stop body)).1 := by
  rw [nodes_forLoop_fst, nodes_forLoop_fst, hbody, hrange]
  rfl

mutual

/-- **One statement with its variables renamed costs the same**, at an aligned
place. -/
theorem nodes_mapVars_fst :
    ∀ (st : Stmt) {ρ : String → String} {s s' : Surroundings}, Aligned x y ρ s s' →
      Harmless x y s.reserved s'.reserved (preorder st) (preorder (st.mapVars ρ))
        (nodes rules s st).2 →
      (nodes rules s' (st.mapVars ρ)).1 = (nodes rules s st).1
  | .assign l target value, ρ, s, s', _, _ => by
      simp only [mapVars, nodes, leaf, Expr.operations_mapVars]
  | .declare l names, ρ, s, s', _, _ => rfl
  | .returns l value, ρ, s, s', _, _ => rfl
  | .evaluate l e, ρ, s, s', _, _ => by
      simp only [mapVars, nodes, leaf, Expr.operations_mapVars]
  | .call l name args, ρ, s, s', _, _ => by
      simp only [mapVars, nodes, leaf, Expr.operationsAll_mapVars]
  | .action l text, ρ, s, s', _, _ => rfl
  | .forLoop l var start stop body, ρ, s, s', halign, h => by
      rw [nodes_forLoop_snd] at h
      obtain ⟨hloop, hinner⟩ := h.cons (.mapVars halign.renames (.forLoop l var start stop body))
      have hvar : var ≠ y := fun heq => (hloop.omits _ List.mem_cons_self).1 (congrArg some heq)
      -- both ranges have the same index, so the bodies are summed over the same
      -- name
      have hrange := hloop.rangeOf halign rfl rfl rfl
      refine nodes_forLoop_congr hrange ?_
      rw [hrange]
      exact blockNodes_mapVars_fst body (halign.inside_counted rfl rfl rfl rfl hvar) hinner _
  | .whileLoop l cond body, ρ, s, s', halign, h => by
      rw [nodes_whileLoop_snd] at h
      obtain ⟨hloop, hinner⟩ := h.cons (.mapVars halign.renames (.whileLoop l cond body))
      have hbody : blockCost rules (s'.inside (.loop (conditionalRange rules s)))
          (mapVarsAll body ρ) =
          blockCost rules (s.inside (.loop (conditionalRange rules s))) body :=
        blockNodes_mapVars_fst body (halign.inside_conditional rfl rfl rfl rfl) hinner _
      rw [mapVars, nodes_whileLoop_fst, nodes_whileLoop_fst, hloop.conditionalRange halign rfl,
        hbody, Expr.operations_mapVars]
  | .branch l cond yes (some no), ρ, s, s', halign, h => by
      rw [nodes_branch_some_snd] at h
      obtain ⟨-, harms⟩ := h.cons (.mapVars halign.renames (.branch l cond yes (some no)))
      obtain ⟨hyes, hno⟩ := harms.split (preorderAll_mapVars yes halign.renames)
      have hyesCost : blockCost rules (s'.inside .yes) (mapVarsAll yes ρ) =
          blockCost rules (s.inside .yes) yes :=
        blockNodes_mapVars_fst yes halign.inside_yes hyes _
      have hnoCost : blockCost rules (s'.inside .no) (mapVarsAll no ρ) =
          blockCost rules (s.inside .no) no :=
        blockNodes_mapVars_fst no halign.inside_no hno _
      rw [mapVars, nodes_branch_some_fst, nodes_branch_some_fst, hyesCost, hnoCost,
        Expr.operations_mapVars]
  | .branch l cond yes none, ρ, s, s', halign, h => by
      rw [nodes_branch_none_snd] at h
      obtain ⟨-, hyes⟩ := h.cons (.mapVars halign.renames (.branch l cond yes none))
      have hyesCost : blockCost rules (s'.inside .yes) (mapVarsAll yes ρ) =
          blockCost rules (s.inside .yes) yes :=
        blockNodes_mapVars_fst yes halign.inside_yes hyes _
      rw [mapVars, nodes_branch_none_fst, nodes_branch_none_fst, hyesCost, Expr.operations_mapVars]
termination_by structural st => st

/-- A block with its variables renamed costs the same. -/
theorem blockNodes_mapVars_fst :
    ∀ (sts : List Stmt) {ρ : String → String} {s s' : Surroundings}, Aligned x y ρ s s' →
      Harmless x y s.reserved s'.reserved (preorderAll sts) (preorderAll (mapVarsAll sts ρ))
        (entries rules s sts) →
      ∀ acc, (blockNodes rules s' acc (mapVarsAll sts ρ)).1 = (blockNodes rules s acc sts).1
  | [], ρ, s, s', _, _, acc => rfl
  | st :: sts, ρ, s, s', halign, h, acc => by
      rw [entries_cons] at h
      obtain ⟨hhere, hlater⟩ := Harmless.split h (preorder_mapVars st halign.renames)
      rw [mapVarsAll, blockNodes_cons_fst, blockNodes_cons_fst, nodes_mapVars_fst st halign hhere]
      exact blockNodes_mapVars_fst sts halign hlater _
termination_by structural sts => sts

end

/-- A statement that is not changed costs the same, at an aligned place. -/
theorem nodes_fst_aligned {st : Stmt} (halign : Aligned x y id s s')
    (h : Harmless x y s.reserved s'.reserved (preorder st) (preorder st) (nodes rules s st).2) :
    (nodes rules s' st).1 = (nodes rules s st).1 := by
  have hcost := @nodes_mapVars_fst rules x y st id s s' halign
  rw [mapVars_id] at hcost
  exact hcost h

/-- Where nothing is renamed, a block costs the same at aligned places. -/
theorem blockNodes_fst_aligned {sts : Block} (halign : Aligned x y id s s')
    (h : Harmless x y s.reserved s'.reserved (preorderAll sts) (preorderAll sts)
      (entries rules s sts)) (acc : Cost) :
    (blockNodes rules s' acc sts).1 = (blockNodes rules s acc sts).1 := by
  have hcost := @blockNodes_mapVars_fst rules x y sts id s s' halign
  rw [mapVarsAll_id] at hcost
  exact hcost h acc

/-- If only the first statement of a block is changed, the block costs the same
as long as that statement does. -/
theorem blockNodes_fst_head {st st' : Stmt} {rest : Block} (halign : Aligned x y id s s')
    (h : Harmless x y s.reserved s'.reserved (preorderAll (st :: rest)) (preorderAll (st' :: rest))
      (entries rules s (st :: rest)))
    (hst : List.Forall₂ (Renamed x y) (preorder st) (preorder st'))
    (hcost : Harmless x y s.reserved s'.reserved (preorder st) (preorder st')
      (nodes rules s st).2 → (nodes rules s' st').1 = (nodes rules s st).1) (acc : Cost) :
    (blockNodes rules s' acc (st' :: rest)).1 = (blockNodes rules s acc (st :: rest)).1 := by
  rw [entries_cons] at h
  obtain ⟨hhere, hlater⟩ := Harmless.split h hst
  rw [blockNodes_cons_fst, blockNodes_cons_fst, hcost hhere]
  exact blockNodes_fst_aligned halign hlater _

/-- **A block in which the variable of a loop is renamed costs the same**, at an
aligned place. -/
theorem RenamesLoop.blockNodes_fst {body body' : Block} (h : RenamesLoop x y body body') :
    ∀ {s s' : Surroundings}, Aligned x y id s s' →
      Harmless x y s.reserved s'.reserved (Stmt.preorderAll body) (Stmt.preorderAll body')
        (entries rules s body) →
      ∀ acc, (blockNodes rules s' acc body').1 = (blockNodes rules s acc body).1 := by
  induction h with
  | here l start stop body rest =>
      intro s s' halign h
      refine blockNodes_fst_head halign h (.cons (.head l start stop body _)
        (preorderAll_mapVars body (.single x y))) fun hst => ?_
      rw [nodes_forLoop_snd] at hst
      obtain ⟨hloop, hinner⟩ := hst.cons (.head l start stop body _)
      have hrange := hloop.rangeOf halign rfl (Expr.mapVars_id _).symm (Expr.mapVars_id _).symm
      refine nodes_forLoop_congr hrange ?_
      rw [hrange]
      -- from here on the variable goes by its new name
      have hinside : Aligned x y (Function.update id x y)
          (s.inside (.loop (rangeOf s x start stop)))
          (s'.inside (.loop ((rangeOf s x start stop).over y))) :=
        halign.inside_renamed rfl rfl rfl rfl
      exact blockNodes_mapVars_fst body hinside hinner _
  | later st hrest ih =>
      intro s s' halign h acc
      -- a statement in front of the loop stays the same
      rw [entries_cons] at h
      obtain ⟨hhere, hlater⟩ := Harmless.split h (forall₂_renamed_refl _)
      rw [blockNodes_cons_fst, blockNodes_cons_fst, nodes_fst_aligned halign hhere]
      exact ih halign hlater _
  | inFor l var start stop rest hbody ih =>
      intro s s' halign h
      refine blockNodes_fst_head halign h (.cons (.of_eq rfl rfl rfl) hbody.preorderAll)
        fun hst => ?_
      rw [nodes_forLoop_snd] at hst
      obtain ⟨hloop, hinner⟩ := hst.cons (.of_eq rfl rfl rfl)
      have hvar : var ≠ y := fun heq => (hloop.omits _ List.mem_cons_self).1 (congrArg some heq)
      have hrange := hloop.rangeOf halign rfl (Expr.mapVars_id _).symm (Expr.mapVars_id _).symm
      refine nodes_forLoop_congr hrange ?_
      rw [hrange]
      exact ih (halign.inside_same rfl rfl rfl rfl hvar) hinner _
  | inWhile l cond rest hbody ih =>
      intro s s' halign h
      refine blockNodes_fst_head halign h (.cons (.of_eq rfl rfl rfl) hbody.preorderAll)
        fun hst => ?_
      rw [nodes_whileLoop_snd] at hst
      obtain ⟨hloop, hinner⟩ := hst.cons (.of_eq rfl rfl rfl)
      have hcost := ih (halign.inside_conditional rfl rfl rfl rfl) hinner Cost.zero
      rw [nodes_whileLoop_fst, nodes_whileLoop_fst, hloop.conditionalRange halign rfl, blockCost,
        hcost, blockCost]
  | inYes l cond no rest hyes ih =>
      intro s s' halign h
      cases no with
      | none =>
          refine blockNodes_fst_head halign h (.cons (.of_eq rfl rfl rfl) hyes.preorderAll)
            fun hst => ?_
          rw [nodes_branch_none_snd] at hst
          obtain ⟨-, hinner⟩ := hst.cons (.of_eq rfl rfl rfl)
          have hcost := ih halign.inside_yes hinner Cost.zero
          rw [nodes_branch_none_fst, nodes_branch_none_fst, blockCost, hcost, blockCost]
      | some no =>
          refine blockNodes_fst_head halign h (.cons (.of_eq rfl rfl rfl)
            (List.rel_append hyes.preorderAll (forall₂_renamed_refl _))) fun hst => ?_
          rw [nodes_branch_some_snd] at hst
          obtain ⟨-, harms⟩ := hst.cons (.of_eq rfl rfl rfl)
          obtain ⟨hinner, hother⟩ := harms.split hyes.preorderAll
          have hcost := ih halign.inside_yes hinner Cost.zero
          have hsame := blockNodes_fst_aligned halign.inside_no hother Cost.zero
          rw [nodes_branch_some_fst, nodes_branch_some_fst, blockCost, hcost, blockCost, hsame]
          rfl
  | inNo l cond yes rest hno ih =>
      intro s s' halign h
      refine blockNodes_fst_head halign h (.cons (.of_eq rfl rfl rfl)
        (List.rel_append (forall₂_renamed_refl _) hno.preorderAll)) fun hst => ?_
      rw [nodes_branch_some_snd] at hst
      obtain ⟨-, harms⟩ := hst.cons (.of_eq rfl rfl rfl)
      obtain ⟨hother, hinner⟩ := harms.split (forall₂_renamed_refl _)
      have hcost := ih halign.inside_no hinner Cost.zero
      have hsame := blockNodes_fst_aligned halign.inside_yes hother Cost.zero
      rw [nodes_branch_some_fst, nodes_branch_some_fst, blockCost, hsame, blockCost, hcost]
      rfl

end Stmt

/-! ## Procedures and programs

The names that are reserved are those of the whole procedure, so the places at
which the two bodies begin are aligned because of what `Harmless` says about all
of it.  The last theorem is about a program that is not harmless, and its cost
does change. -/

namespace Function

/-- The same procedure with another body. -/
def withBody (f : Function) (body : Block) : Function :=
  { f with body }

/-- All names of variables in a procedure. -/
def allNames (f : Function) : List String :=
  Stmt.namesIn f.body ++ Stmt.loopVars f.body ++ f.params.map Param.name

/-- The names in use are those that occur and that no loop runs over, and the
parameters. -/
theorem mem_reservedNames {f : Function} {z : String} :
    z ∈ f.reservedNames ↔
      z ∈ Stmt.namesIn f.body ∧ z ∉ Stmt.loopVars f.body ∨ z ∈ f.params.map Param.name := by
  rw [reservedNames, List.mem_append, List.mem_filter]
  simp only [Bool.not_eq_true', List.contains_eq_mem, decide_eq_false_iff_not]

variable {f : Function} {body' : Block} {x y : String}

/-- No name but that of the renamed variable becomes reserved or ceases to be
so. -/
theorem mem_reservedNames_withBody (h : Stmt.RenamesLoop x y f.body body') (hy : y ∉ f.allNames)
    {z : String} (hx : z ≠ x) : z ∈ (f.withBody body').reservedNames ↔ z ∈ f.reservedNames := by
  rw [allNames, List.mem_append, List.mem_append, not_or, not_or] at hy
  rw [mem_reservedNames, mem_reservedNames]
  by_cases hzy : z = y
  · -- the new name is that of a loop, and was not there before
    rw [hzy]
    refine iff_of_false ?_ ?_
    · rintro (⟨-, hvar⟩ | hparam)
      · exact hvar h.mem_loopVars.2
      · exact hy.2 hparam
    · rintro (⟨hname, -⟩ | hparam)
      · exact hy.1.1 hname
      · exact hy.2 hparam
  · have hnames : z ∈ Stmt.namesIn body' ↔ z ∈ Stmt.namesIn f.body :=
      Stmt.mem_names_iff h.preorderAll hx hzy
    have hvars : z ∈ Stmt.loopVars body' ↔ z ∈ Stmt.loopVars f.body := by
      rw [Stmt.loopVars_eq, Stmt.loopVars_eq]
      exact Stmt.mem_loopVar?_iff h.preorderAll hx hzy
    exact or_congr_left (and_congr hnames (not_congr hvars))

/-- Outside all loops the two procedures are aligned. -/
theorem aligned_withBody (h : Stmt.RenamesLoop x y f.body body') (hy : y ∉ f.allNames) :
    Surroundings.Aligned x y id { reserved := f.reservedNames }
      { reserved := (f.withBody body').reservedNames } where
  renames := .refl x y
  indices := rfl
  counted := rfl
  reserved := fun _ => mem_reservedNames_withBody h hy
  kept := by
    intro hx
    -- a loop runs over `x`, so it can only be reserved as a parameter
    rw [mem_reservedNames] at hx ⊢
    exact Or.inr (hx.resolve_left fun hx => hx.2 h.mem_loopVars.1)
  rename := fun _ _ => rfl

/-- The cost of a procedure does not change. -/
theorem nodes_fst_withBody (h : Stmt.RenamesLoop x y f.body body') (hy : y ∉ f.allNames)
    {rules : CostRules}
    (hindex : x ∈ (f.withBody body').reservedNames → x ∉ f.reservedNames →
      ∀ n ∈ (f.nodes rules).2, n.Avoids x)
    (htexts : Stmt.opaqueTexts (Stmt.preorderAll body') =
      Stmt.opaqueTexts (Stmt.preorderAll f.body)) :
    ((f.withBody body').nodes rules).1 = (f.nodes rules).1 := by
  have homits : ∀ t ∈ Stmt.preorderAll f.body, t.Omits y := by
    intro t ht
    rw [allNames, List.mem_append, List.mem_append, not_or, not_or] at hy
    constructor
    · intro hvar
      rw [Stmt.loopVars_eq] at hy
      exact hy.1.2 (List.mem_filterMap.mpr ⟨t, ht, hvar⟩)
    · exact fun hname => hy.1.1 (List.mem_flatMap.mpr ⟨t, ht, hname⟩)
  exact h.blockNodes_fst (aligned_withBody h hy) ⟨homits, hindex, htexts⟩ Cost.zero

end Function

/-- The cost of a program is that of its procedures together. -/
theorem Program.nodes_fst (rules : CostRules) (p : Program) :
    (p.nodes rules).1 =
      p.functions.foldl (fun total f => total.add (f.nodes rules).1) Cost.zero := by
  have hfold : ∀ (fs : List Function) (total : Cost) (entries : List NodeCost),
      (fs.foldl (fun sofar f => (sofar.1.add (f.nodes rules).1, sofar.2 ++ (f.nodes rules).2))
        (total, entries)).1 =
      fs.foldl (fun total f => total.add (f.nodes rules).1) total := by
    intro fs
    induction fs with
    | nil => exact fun _ _ => rfl
    | cons f fs ih => exact fun _ _ => ih _ _
  exact hfold p.functions Cost.zero []

namespace CostReport

/-- **The name of a loop variable does not matter to the cost of a program**, in
any case and for all rules.  The new name `y` occurs nowhere in the procedure;
if the old name `x` is in use outside the loops over it, no loop has it for its
index; and it does not show in a bound that is no formula. -/
theorem total_renamesLoop {f : Function} {body' : Block} {x y : String}
    (hloop : Stmt.RenamesLoop x y f.body body') (hy : y ∉ f.allNames) {rules : CostRules}
    (hindex : x ∈ (f.withBody body').reservedNames → x ∉ f.reservedNames →
      ∀ n ∈ (f.nodes rules).2, n.Avoids x)
    (htexts : Stmt.opaqueTexts (Stmt.preorderAll body') =
      Stmt.opaqueTexts (Stmt.preorderAll f.body))
    (before after : List Function) (text text' : String) (k : CostCase) :
    ((ofProgram rules ⟨before ++ f.withBody body' :: after⟩ text').total.of k).simplify.poly =
      ((ofProgram rules ⟨before ++ f :: after⟩ text).total.of k).simplify.poly := by
  have hcost := Function.nodes_fst_withBody hloop hy hindex htexts
  have htotal : (ofProgram rules ⟨before ++ f.withBody body' :: after⟩ text').total =
      (ofProgram rules ⟨before ++ f :: after⟩ text).total := by
    show (Program.nodes rules ⟨before ++ f.withBody body' :: after⟩).1 =
      (Program.nodes rules ⟨before ++ f :: after⟩).1
    rw [Program.nodes_fst, Program.nodes_fst, List.foldl_append, List.foldl_append,
      List.foldl_cons, List.foldl_cons, hcost]
  rw [htotal]

/-- The body of `Function.shadowedLoops` with its outer loop running over
`a`. -/
def shadowedRenamed : Block :=
  [.forLoop .unknown "a" (.int 1) (.var "n")
    [.forLoop .unknown "i" (.var "a") (.binary .div (.binary .mul (.int 2) (.var "n")) (.int 2))
      [.whileLoop .unknown (.compare .lt (.var "x") (.int 3))
        [.branch .unknown (.compare .lt (.var "x") (.int 3)) [.action .unknown "swap"] none]]],
   .whileLoop .unknown (.compare .lt (.var "x") (.int 3))
    [.assign .unknown (.var "x") (.var "y")]]

/-- The outer loop of `shadowedLoops` may run over `a`: nothing in the total
changes. -/
theorem total_renamesLoop_shadowedLoops :
    Stmt.RenamesLoop "i" "a" Function.shadowedLoops.body shadowedRenamed ∧
      "a" ∉ Function.shadowedLoops.allNames ∧
      "i" ∉ (Function.shadowedLoops.withBody shadowedRenamed).reservedNames ∧
      Stmt.opaqueTexts (Stmt.preorderAll shadowedRenamed) =
        Stmt.opaqueTexts (Stmt.preorderAll Function.shadowedLoops.body) ∧
      ∀ k, ((ofProgram Function.evenRules ⟨[Function.shadowedLoops.withBody shadowedRenamed]⟩
          "").total.of k).simplify.poly =
        ((ofProgram Function.evenRules ⟨[Function.shadowedLoops]⟩
          "").total.of k).simplify.poly := by
  have hloop : Stmt.RenamesLoop "i" "a" Function.shadowedLoops.body shadowedRenamed := .here ..
  have hy : "a" ∉ Function.shadowedLoops.allNames := by decide
  have hx : "i" ∉ (Function.shadowedLoops.withBody shadowedRenamed).reservedNames := by
    decide
  have htexts : Stmt.opaqueTexts (Stmt.preorderAll shadowedRenamed) =
      Stmt.opaqueTexts (Stmt.preorderAll Function.shadowedLoops.body) := by
    decide
  exact ⟨hloop, hy, hx, htexts,
    total_renamesLoop hloop hy (fun hmem => absurd hmem hx) htexts [] [] "" ""⟩

/-- The last two loops run up to `i`, which is no variable of theirs. -/
def capturedLoops (var : String) : Function where
  name := "f"
  params := [⟨"n", false⟩]
  lines := .lines 1 6
  body :=
    [.forLoop (.lines 2 2) var (.int 1) (.var "n") [.assign (.lines 2 2) (.var "a") (.int 0)],
     .forLoop (.lines 3 5) "x" (.int 1) (.var "i")
      [.forLoop (.lines 4 4) "y" (.int 1) (.var "i") [.assign (.lines 4 4) (.var "a") (.int 0)]]]

/-- The text of `capturedLoops`. -/
def capturedSource (var : String) : String :=
  "f(n) begin\nfor " ++ var ++ " 🡨 1 to n do begin a 🡨 0 end\n" ++
    "for x 🡨 1 to i do begin\nfor y 🡨 1 to i do begin a 🡨 0 end\nend\nend"

/-- The closed form of the worst case of a program. -/
def worstForm (p : Program) : Poly :=
  ((ofProgram Function.evenRules p "").total.of .worst).simplify.poly

/-- **An index captures a variable.**  The first loop runs over `i`, so `i` is
not reserved, the second loop takes it for its index, and the bound of the third
one is read as that index: the worst case is `n + i*(i + 1)/2`.  Once the first
loop runs over `zz` it is `n + i**2`. -/
theorem total_renamesLoop_captured :
    Stmt.RenamesLoop "i" "zz" (capturedLoops "i").body (capturedLoops "zz").body ∧
      "zz" ∉ (capturedLoops "i").allNames ∧
      worstForm ⟨[capturedLoops "i"]⟩ ≠ worstForm ⟨[capturedLoops "zz"]⟩ ∧
      ∃ p p', Program.parse (capturedSource "i") = .ok p ∧
        Program.parse (capturedSource "zz") = .ok p' ∧ worstForm p ≠ worstForm p' := by
  refine ⟨.here .., by decide, fun heq => ?_, ?_⟩
  · have hterms : (worstForm ⟨[capturedLoops "i"]⟩).terms.length = 3 ∧
        (worstForm ⟨[capturedLoops "zz"]⟩).terms.length = 2 := by decide +kernel
    rw [heq] at hterms
    omega
  · have hfirst : (Program.parse (capturedSource "i")).toOption.map
        (fun p => (worstForm p).terms.length) = some 3 := by decide +kernel
    have hsecond : (Program.parse (capturedSource "zz")).toOption.map
        (fun p => (worstForm p).terms.length) = some 2 := by decide +kernel
    cases hp : Program.parse (capturedSource "i") with
    | error e =>
        rw [hp] at hfirst
        cases hfirst
    | ok p =>
        cases hp' : Program.parse (capturedSource "zz") with
        | error e =>
            rw [hp'] at hsecond
            cases hsecond
        | ok p' =>
            rw [hp] at hfirst
            rw [hp'] at hsecond
            have hthree : (worstForm p).terms.length = 3 := Option.some.inj hfirst
            have htwo : (worstForm p').terms.length = 2 := Option.some.inj hsecond
            refine ⟨p, p', rfl, rfl, fun heq => ?_⟩
            rw [heq] at hthree
            omega

end CostReport

end CostAnalysis
