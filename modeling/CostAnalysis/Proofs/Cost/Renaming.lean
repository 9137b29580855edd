import CostAnalysis.Cost.Nodes
import CostAnalysis.Proofs.Cost.Simulation

/-!
# Renaming variables

The variables of an expression and those of a statement can be renamed by a
function on names (`Expr.mapVars`, `Stmt.mapVars`); a loop hides the variable
that it runs over.  `Stmt.RenamesLoop x y` relates a block to the one in which
one loop over `x` runs over `y` instead, together with the occurrences of `x`
that the loop binds.

What a renaming does to each statement by itself is `Stmt.Renamed`, and it holds
of the statements of the two blocks one by one (`Stmt.RenamesLoop.preorderAll`).
So the names in use and the variables of loops stay the same but for `x` and `y`
(`Stmt.mem_names_iff`, `Stmt.mem_loopVar?_iff`).

**At most one name changes.**  All renamings that occur are the identity or put
`y` for `x`, and the identity again inside of a loop over `x`.  `Renames x y ρ`
says no more than this, so that a proof by recursion on a block has one form of
hypothesis at every depth.
-/

namespace CostAnalysis

/-! ## Renaming the variables of expressions

A renaming changes the names in an expression and nothing else: neither its
operations, nor whether it is a formula, nor the formula itself if the new names
stand for what the old ones did. -/

namespace Expr

mutual

/-- The expression with its variables renamed. -/
def mapVars (ρ : String → String) : Expr → Expr
  | .var name => .var (ρ name)
  | .literal v => .literal v
  | .binary op a b => .binary op (mapVars ρ a) (mapVars ρ b)
  | .unary op a => .unary op (mapVars ρ a)
  | .compare op a b => .compare op (mapVars ρ a) (mapVars ρ b)
  | .call name args => .call name (mapVarsAll ρ args)
  | .index a i => .index (mapVars ρ a) (mapVars ρ i)
  | .array es => .array (mapVarsAll ρ es)
termination_by structural e => e

/-- The expressions with their variables renamed. -/
def mapVarsAll (ρ : String → String) : List Expr → List Expr
  | [] => []
  | e :: es => mapVars ρ e :: mapVarsAll ρ es
termination_by structural es => es

end

/-- A list of expressions is renamed one by one. -/
theorem mapVarsAll_eq_map (ρ : String → String) (es : List Expr) :
    mapVarsAll ρ es = es.map (mapVars ρ) := by
  induction es with
  | nil => rfl
  | cons e es ih => rw [mapVarsAll, ih, List.map_cons]

mutual

/-- Nothing changes if no name does. -/
theorem mapVars_id : ∀ e : Expr, mapVars id e = e
  | .var name => rfl
  | .literal v => rfl
  | .binary op a b => by rw [mapVars, mapVars_id a, mapVars_id b]
  | .unary op a => by rw [mapVars, mapVars_id a]
  | .compare op a b => by rw [mapVars, mapVars_id a, mapVars_id b]
  | .call name args => by rw [mapVars, mapVarsAll_id args]
  | .index a i => by rw [mapVars, mapVars_id a, mapVars_id i]
  | .array es => by rw [mapVars, mapVarsAll_id es]
termination_by structural e => e

theorem mapVarsAll_id : ∀ es : List Expr, mapVarsAll id es = es
  | [] => rfl
  | e :: es => by rw [mapVarsAll, mapVars_id e, mapVarsAll_id es]
termination_by structural es => es

end

mutual

/-- The names of a renamed expression are the renamed names, in their order. -/
theorem names_mapVars (ρ : String → String) : ∀ e : Expr, (e.mapVars ρ).names = e.names.map ρ
  | .var name => rfl
  | .literal v => rfl
  | .binary op a b => by
      rw [mapVars, names, names, names_mapVars ρ a, names_mapVars ρ b, List.map_append]
  | .unary op a => names_mapVars ρ a
  | .compare op a b => by
      rw [mapVars, names, names, names_mapVars ρ a, names_mapVars ρ b, List.map_append]
  | .call name args => namesAll_mapVars ρ args
  | .index a i => by
      rw [mapVars, names, names, names_mapVars ρ a, names_mapVars ρ i, List.map_append]
  | .array es => namesAll_mapVars ρ es
termination_by structural e => e

theorem namesAll_mapVars (ρ : String → String) :
    ∀ es : List Expr, namesAll (mapVarsAll ρ es) = (namesAll es).map ρ
  | [] => rfl
  | e :: es => by
      rw [mapVarsAll, namesAll, namesAll, names_mapVars ρ e, namesAll_mapVars ρ es,
        List.map_append]
termination_by structural es => es

end

mutual

/-- Renaming takes no operations. -/
theorem operations_mapVars (ρ : String → String) :
    ∀ e : Expr, (e.mapVars ρ).operations = e.operations
  | .var name => rfl
  | .literal v => rfl
  | .binary op a b => by
      rw [mapVars, operations, operations, operations_mapVars ρ a, operations_mapVars ρ b]
  | .unary op a => by rw [mapVars, operations, operations, operations_mapVars ρ a]
  | .compare op a b => by
      rw [mapVars, operations, operations, operations_mapVars ρ a, operations_mapVars ρ b]
  | .call name args => by rw [mapVars, operations, operations, operationsAll_mapVars ρ args]
  | .index a i => by
      rw [mapVars, operations, operations, operations_mapVars ρ a, operations_mapVars ρ i]
  | .array es => operationsAll_mapVars ρ es
termination_by structural e => e

/-- A list of renamed expressions has as many operations as before. -/
theorem operationsAll_mapVars (ρ : String → String) :
    ∀ es : List Expr, operationsAll (mapVarsAll ρ es) = operationsAll es
  | [] => rfl
  | e :: es => by
      rw [mapVarsAll, operationsAll, operationsAll, operations_mapVars ρ e,
        operationsAll_mapVars ρ es]
termination_by structural es => es

end

mutual

/-- The formula of a renamed expression goes through both renamings; only the
names that occur count. -/
theorem formula?_mapVars {ρ g h : String → String} :
    ∀ e : Expr, (∀ z ∈ e.names, g (ρ z) = h z) → (e.mapVars ρ).formula? g = e.formula? h
  | .var name, hnames => congrArg (some ∘ Formula.var) (hnames name List.mem_cons_self)
  | .literal v, hnames => by
      rw [mapVars]
      cases v <;> rfl
  | .binary op a b, hnames => by
      have ha := formula?_mapVars a fun z hz => hnames z (List.mem_append_left _ hz)
      have hb := formula?_mapVars b fun z hz => hnames z (List.mem_append_right _ hz)
      rw [mapVars, formula?, formula?, ha, hb]
  | .unary .neg a, hnames => by rw [mapVars, formula?, formula?, formula?_mapVars a hnames]
  | .unary .not a, hnames => rfl
  | .compare op a b, hnames => rfl
  | .call name args, hnames => by
      rw [mapVars, formula?, formula?, soleFormula?_mapVars args hnames]
  | .index a i, hnames => rfl
  | .array es, hnames => rfl
termination_by structural e => e

/-- The sole argument of a call converts as in `formula?_mapVars`. -/
theorem soleFormula?_mapVars {ρ g h : String → String} :
    ∀ es : List Expr, (∀ z ∈ namesAll es, g (ρ z) = h z) →
      soleFormula? g (mapVarsAll ρ es) = soleFormula? h es
  | [], hnames => rfl
  | e :: es, hnames => by
      have he := formula?_mapVars e fun z hz => hnames z (List.mem_append_left _ hz)
      have hempty : (mapVarsAll ρ es).isEmpty = es.isEmpty := by cases es <;> rfl
      rw [mapVarsAll, soleFormula?, soleFormula?, he, hempty]
termination_by structural es => es

end

mutual

/-- Whether an expression has a formula does not depend on what its variables
are called. -/
theorem isSome_formula? (g h : String → String) :
    ∀ e : Expr, (e.formula? g).isSome = (e.formula? h).isSome
  | .var name => rfl
  | .literal v => by cases v <;> rfl
  | .binary op a b => by
      have ha := isSome_formula? g h a
      have hb := isSome_formula? g h b
      rw [formula?, formula?]
      cases hga : a.formula? g <;> cases hha : a.formula? h <;> cases hgb : b.formula? g <;>
        cases hhb : b.formula? h <;> simp_all
      cases op <;> rfl
  | .unary .neg a => by
      rw [formula?, formula?, Option.isSome_map, Option.isSome_map, isSome_formula? g h a]
  | .unary .not a => rfl
  | .compare op a b => rfl
  | .call name args => by
      have hargs := isSome_soleFormula? g h args
      rw [formula?, formula?]
      cases KnownFunction.ofName? name with
      | none => rfl
      | some kind =>
          cases hg : soleFormula? g args <;> cases hh : soleFormula? h args <;> cases kind <;>
            simp_all
  | .index a i => rfl
  | .array es => rfl
termination_by structural e => e

/-- Whether it is a formula does not depend on what names are mapped to. -/
theorem isSome_soleFormula? (g h : String → String) :
    ∀ es : List Expr,
      (soleFormula? g es).map Option.isSome = (soleFormula? h es).map Option.isSome
  | [] => rfl
  | e :: es => by
      rw [soleFormula?, soleFormula?]
      cases es.isEmpty with
      | false => rfl
      | true => simp [isSome_formula? g h e]
termination_by structural es => es

end

/-- The text that stands for a bound that is no formula. -/
def opaqueText? (e : Expr) : Option String :=
  if (e.formula? id).isSome then none else some e.compactText

end Expr

/-! ## Renaming the variable of a loop

A loop hides its variable, so the renaming that goes into its body is the
identity on that name.  Where nothing is renamed, the block stays as it is. -/

theorem update_id_self (name : String) : Function.update id name name = (id : String → String) :=
  Function.update_eq_self name id

/-- A renaming that changes at most `x`, and that to `y`. -/
def Renames (x y : String) (ρ : String → String) : Prop :=
  ∀ z, ρ z = z ∨ z = x ∧ ρ z = y

namespace Renames

variable {x y : String} {ρ : String → String}

theorem refl (x y : String) : Renames x y id := fun _ => Or.inl rfl

theorem single (x y : String) : Renames x y (Function.update id x y) := by
  intro z
  by_cases hz : z = x
  · exact Or.inr ⟨hz, by rw [hz, Function.update_self]⟩
  · exact Or.inl (Function.update_of_ne hz _ _)

/-- A loop hides the variable that it runs over. -/
theorem hide (h : Renames x y ρ) (var : String) : Renames x y (Function.update ρ var var) := by
  intro z
  by_cases hz : z = var
  · exact Or.inl (by rw [hz, Function.update_self])
  · rw [Function.update_of_ne hz]
    exact h z

/-- A third name occurs where it did. -/
theorem mem_map_iff (h : Renames x y ρ) {z : String} (hx : z ≠ x) (hy : z ≠ y)
    (names : List String) : z ∈ names.map ρ ↔ z ∈ names := by
  rw [List.mem_map]
  constructor
  · rintro ⟨w, hw, rfl⟩
    rcases h w with heq | ⟨-, heq⟩
    · rwa [heq]
    · exact absurd heq hy
  · intro hz
    exact ⟨z, hz, (h z).resolve_right fun hzx => hx hzx.1⟩

end Renames

namespace Stmt

mutual

/-- The statement with its variables renamed, but for those that a loop in it
runs over. -/
def mapVars : Stmt → (String → String) → Stmt
  | .assign l target value, ρ => .assign l (target.mapVars ρ) (value.mapVars ρ)
  | .declare l names, ρ => .declare l (names.map ρ)
  | .forLoop l var start stop body, ρ =>
    .forLoop l var (start.mapVars ρ) (stop.mapVars ρ) (mapVarsAll body (Function.update ρ var var))
  | .whileLoop l cond body, ρ => .whileLoop l (cond.mapVars ρ) (mapVarsAll body ρ)
  | .branch l cond yes (some no), ρ =>
    .branch l (cond.mapVars ρ) (mapVarsAll yes ρ) (some (mapVarsAll no ρ))
  | .branch l cond yes none, ρ => .branch l (cond.mapVars ρ) (mapVarsAll yes ρ) none
  | .returns l value, ρ => .returns l (value.map (Expr.mapVars ρ))
  | .evaluate l e, ρ => .evaluate l (e.mapVars ρ)
  | .call l name args, ρ => .call l name (Expr.mapVarsAll ρ args)
  | .action l text, _ => .action l text
termination_by structural st => st

/-- The block with its variables renamed, but for those that a loop in it runs
over. -/
def mapVarsAll : List Stmt → (String → String) → List Stmt
  | [], _ => []
  | st :: sts, ρ => mapVars st ρ :: mapVarsAll sts ρ
termination_by structural sts => sts

end

mutual

/-- Nothing changes in a statement if no name does. -/
theorem mapVars_id : ∀ st : Stmt, mapVars st id = st
  | .assign l target value => by rw [mapVars, Expr.mapVars_id, Expr.mapVars_id]
  | .declare l names => by rw [mapVars, List.map_id]
  | .forLoop l var start stop body => by
      rw [mapVars, Expr.mapVars_id, Expr.mapVars_id, update_id_self, mapVarsAll_id body]
  | .whileLoop l cond body => by rw [mapVars, Expr.mapVars_id, mapVarsAll_id body]
  | .branch l cond yes (some no) => by
      rw [mapVars, Expr.mapVars_id, mapVarsAll_id yes, mapVarsAll_id no]
  | .branch l cond yes none => by rw [mapVars, Expr.mapVars_id, mapVarsAll_id yes]
  | .returns l none => rfl
  | .returns l (some value) => by rw [mapVars, Option.map_some, Expr.mapVars_id]
  | .evaluate l e => by rw [mapVars, Expr.mapVars_id]
  | .call l name args => by rw [mapVars, Expr.mapVarsAll_id]
  | .action l text => rfl
termination_by structural st => st

theorem mapVarsAll_id : ∀ sts : List Stmt, mapVarsAll sts id = sts
  | [] => rfl
  | st :: sts => by rw [mapVarsAll, mapVars_id st, mapVarsAll_id sts]
termination_by structural sts => sts

end

/-- The second block is the first one with a loop over `x` running over `y`
instead: `y` stands in the head of the loop and wherever the loop binds an `x`
in its body. -/
inductive RenamesLoop (x y : String) : Block → Block → Prop
  | here (l : LineSpan) (start stop : Expr) (body rest : Block) :
      RenamesLoop x y (.forLoop l x start stop body :: rest)
        (.forLoop l y start stop (mapVarsAll body (Function.update id x y)) :: rest)
  | later (st : Stmt) {rest rest' : Block} :
      RenamesLoop x y rest rest' → RenamesLoop x y (st :: rest) (st :: rest')
  | inFor (l : LineSpan) (var : String) (start stop : Expr) (rest : Block) {body body' : Block} :
      RenamesLoop x y body body' →
      RenamesLoop x y (.forLoop l var start stop body :: rest)
        (.forLoop l var start stop body' :: rest)
  | inWhile (l : LineSpan) (cond : Expr) (rest : Block) {body body' : Block} :
      RenamesLoop x y body body' →
      RenamesLoop x y (.whileLoop l cond body :: rest) (.whileLoop l cond body' :: rest)
  | inYes (l : LineSpan) (cond : Expr) (no : Option Block) (rest : Block) {yes yes' : Block} :
      RenamesLoop x y yes yes' →
      RenamesLoop x y (.branch l cond yes no :: rest) (.branch l cond yes' no :: rest)
  | inNo (l : LineSpan) (cond : Expr) (yes rest : Block) {no no' : Block} :
      RenamesLoop x y no no' →
      RenamesLoop x y (.branch l cond yes (some no) :: rest) (.branch l cond yes (some no') :: rest)

/-- The bounds of the counting loops among some statements, each with the text
that stands for it if it is no formula. -/
def opaqueTexts (sts : List Stmt) : List (Option String) :=
  (sts.flatMap bounds).map Expr.opaqueText?

/-- The texts of two lists of statements follow each other. -/
theorem opaqueTexts_append (sts sts' : List Stmt) :
    opaqueTexts (sts ++ sts') = opaqueTexts sts ++ opaqueTexts sts' := by
  rw [opaqueTexts, List.flatMap_append, List.map_append]
  rfl

/-- The variable that a counting loop runs over. -/
def loopVar? : Stmt → Option String
  | .forLoop _ var _ _ _ => some var
  | _ => none

/-- The variables of loops in a block are those of its loops at any depth. -/
theorem loopVars_eq (body : Block) : loopVars body = (preorderAll body).filterMap loopVar? := by
  rw [loopVars]
  congr 1

/-! ### Statement by statement

The lists of all statements of the two blocks, in the order in which they are
written, correspond one by one.  Facts about names and bounds are read off this
correspondence, without going through the blocks again. -/

/-- What renaming the variable of a loop does to each statement of a block by
itself. -/
structure Renamed (x y : String) (st st' : Stmt) : Prop where
  expressions : ∃ ρ, Renames x y ρ ∧ st'.expressions = st.expressions.map (Expr.mapVars ρ)
  bounds : ∃ ρ, Renames x y ρ ∧ st'.bounds = st.bounds.map (Expr.mapVars ρ)
  loopVar : st'.loopVar? = st.loopVar? ∨ st.loopVar? = some x ∧ st'.loopVar? = some y

/-- Statements that differ only in the blocks in them. -/
theorem Renamed.of_eq {x y : String} {st st' : Stmt}
    (hexpressions : st'.expressions = st.expressions) (hbounds : st'.bounds = st.bounds)
    (hvar : st'.loopVar? = st.loopVar?) : Renamed x y st st' := by
  have hmap : ∀ es : List Expr, es = es.map (Expr.mapVars id) := fun es => by
    rw [← Expr.mapVarsAll_eq_map, Expr.mapVarsAll_id]
  exact ⟨⟨id, .refl x y, hexpressions.trans (hmap _)⟩, ⟨id, .refl x y, hbounds.trans (hmap _)⟩,
    Or.inl hvar⟩

/-- The loop whose variable is renamed. -/
theorem Renamed.head {x y : String} (l : LineSpan) (start stop : Expr) (body body' : Block) :
    Renamed x y (.forLoop l x start stop body) (.forLoop l y start stop body') := by
  obtain ⟨hexpressions, hbounds, -⟩ : Renamed x y (.forLoop l x start stop body)
    (.forLoop l x start stop body') := .of_eq rfl rfl rfl
  exact ⟨hexpressions, hbounds, Or.inr ⟨rfl, rfl⟩⟩

/-- The statement itself, its blocks aside. -/
theorem Renamed.mapVars {x y : String} {ρ : String → String} (hρ : Renames x y ρ) (st : Stmt) :
    Renamed x y st (st.mapVars ρ) := by
  cases st with
  | forLoop l var start stop body => exact ⟨⟨ρ, hρ, rfl⟩, ⟨ρ, hρ, rfl⟩, Or.inl rfl⟩
  | branch l cond yes no => cases no <;> exact ⟨⟨ρ, hρ, rfl⟩, ⟨ρ, hρ, rfl⟩, Or.inl rfl⟩
  | returns l value => cases value <;> exact ⟨⟨ρ, hρ, rfl⟩, ⟨ρ, hρ, rfl⟩, Or.inl rfl⟩
  | call l name args =>
      exact ⟨⟨ρ, hρ, Expr.mapVarsAll_eq_map ρ args⟩, ⟨ρ, hρ, rfl⟩, Or.inl rfl⟩
  | _ => exact ⟨⟨ρ, hρ, rfl⟩, ⟨ρ, hρ, rfl⟩, Or.inl rfl⟩

mutual

/-- **Statement by statement** a renaming does what it does to each by itself.
A loop over `x` ends it in its body, and so what is carried along is only that
the renaming changes at most `x`. -/
theorem preorder_mapVars {x y : String} :
    ∀ (st : Stmt) {ρ : String → String}, Renames x y ρ →
      List.Forall₂ (Renamed x y) (preorder st) (preorder (st.mapVars ρ))
  | .forLoop l var start stop body, _, hρ =>
      .cons (.mapVars hρ (.forLoop l var start stop body)) (preorderAll_mapVars body (hρ.hide var))
  | .whileLoop l cond body, _, hρ =>
      .cons (.mapVars hρ (.whileLoop l cond body)) (preorderAll_mapVars body hρ)
  | .branch l cond yes (some no), _, hρ =>
      .cons (.mapVars hρ (.branch l cond yes (some no)))
        (List.rel_append (preorderAll_mapVars yes hρ) (preorderAll_mapVars no hρ))
  | .branch l cond yes none, _, hρ =>
      .cons (.mapVars hρ (.branch l cond yes none)) (preorderAll_mapVars yes hρ)
  | .assign l target value, _, hρ => .cons (.mapVars hρ (.assign l target value)) .nil
  | .declare l names, _, hρ => .cons (.mapVars hρ (.declare l names)) .nil
  | .returns l value, _, hρ => .cons (.mapVars hρ (.returns l value)) .nil
  | .evaluate l e, _, hρ => .cons (.mapVars hρ (.evaluate l e)) .nil
  | .call l name args, _, hρ => .cons (.mapVars hρ (.call l name args)) .nil
  | .action l text, _, hρ => .cons (.mapVars hρ (.action l text)) .nil
termination_by structural st => st

/-- The same for a block. -/
theorem preorderAll_mapVars {x y : String} :
    ∀ (sts : List Stmt) {ρ : String → String}, Renames x y ρ →
      List.Forall₂ (Renamed x y) (preorderAll sts) (preorderAll (mapVarsAll sts ρ))
  | [], _, _ => .nil
  | st :: sts, _, hρ => List.rel_append (preorder_mapVars st hρ) (preorderAll_mapVars sts hρ)
termination_by structural sts => sts

end

theorem forall₂_renamed_refl {x y : String} (sts : List Stmt) :
    List.Forall₂ (Renamed x y) sts sts :=
  List.forall₂_same.mpr fun _ _ => .of_eq rfl rfl rfl

variable {x y : String} {body body' : Block}

namespace RenamesLoop

/-- The statements of the two blocks go together one by one.  The induction goes
down to the loop that is renamed, with everything beside it unchanged. -/
theorem preorderAll (h : RenamesLoop x y body body') :
    List.Forall₂ (Renamed x y) (Stmt.preorderAll body) (Stmt.preorderAll body') := by
  induction h with
  | here l start stop body rest =>
      exact List.rel_append
        (.cons (.head l start stop body _) (preorderAll_mapVars body (.single x y)))
        (forall₂_renamed_refl _)
  | later st _ ih => exact List.rel_append (forall₂_renamed_refl _) ih
  | inFor l var start stop rest _ ih =>
      exact List.rel_append (.cons (.of_eq rfl rfl rfl) ih) (forall₂_renamed_refl _)
  | inWhile l cond rest _ ih =>
      exact List.rel_append (.cons (.of_eq rfl rfl rfl) ih) (forall₂_renamed_refl _)
  | inYes l cond no rest _ ih =>
      cases no with
      | none => exact List.rel_append (.cons (.of_eq rfl rfl rfl) ih) (forall₂_renamed_refl _)
      | some no =>
          exact List.rel_append
            (.cons (.of_eq rfl rfl rfl) (List.rel_append ih (forall₂_renamed_refl _)))
            (forall₂_renamed_refl _)
  | inNo l cond yes rest _ ih =>
      exact List.rel_append
        (.cons (.of_eq rfl rfl rfl) (List.rel_append (forall₂_renamed_refl _) ih))
        (forall₂_renamed_refl _)

/-- The renamed loop ran over `x` and runs over `y`. -/
theorem mem_loopVars (h : RenamesLoop x y body body') :
    x ∈ loopVars body ∧ y ∈ loopVars body' := by
  simp only [loopVars_eq]
  induction h with
  | here l start stop body rest =>
      exact ⟨List.mem_filterMap.mpr ⟨_, List.mem_cons_self, rfl⟩,
        List.mem_filterMap.mpr ⟨_, List.mem_cons_self, rfl⟩⟩
  | later st _ ih =>
      simp only [Stmt.preorderAll, List.filterMap_append, List.mem_append, ih, or_true, and_self]
  | inFor l var start stop rest _ ih =>
      simp only [Stmt.preorderAll, preorder, List.cons_append, List.filterMap_cons, loopVar?,
        List.filterMap_append, List.mem_cons, List.mem_append, ih, true_or, or_true, and_self]
  | inWhile l cond rest _ ih =>
      simp only [Stmt.preorderAll, preorder, List.cons_append, List.filterMap_cons, loopVar?,
        List.filterMap_append, List.mem_append, ih, true_or, and_self]
  | inYes l cond no rest _ ih =>
      cases no <;>
      simp only [Stmt.preorderAll, preorder, List.cons_append, List.filterMap_cons, loopVar?,
        List.filterMap_append, List.mem_append, ih, true_or, and_self]
  | inNo l cond yes rest _ ih =>
      simp only [Stmt.preorderAll, preorder, List.cons_append, List.filterMap_cons, loopVar?,
        List.filterMap_append, List.mem_append, ih, true_or, or_true, and_self]

end RenamesLoop

variable {sts sts' : List Stmt}

/-- A third name is used where it was. -/
theorem mem_names_iff (h : List.Forall₂ (Renamed x y) sts sts') {z : String} (hx : z ≠ x)
    (hy : z ≠ y) :
    z ∈ sts'.flatMap (fun st => Expr.namesAll st.expressions) ↔
      z ∈ sts.flatMap (fun st => Expr.namesAll st.expressions) := by
  induction h with
  | nil => rfl
  | cons hst _ ih =>
      obtain ⟨ρ, hρ, heq⟩ := hst.expressions
      rw [List.flatMap_cons, List.flatMap_cons, List.mem_append, List.mem_append, ih, heq,
        ← Expr.mapVarsAll_eq_map, Expr.namesAll_mapVars, hρ.mem_map_iff hx hy]

/-- A third name is run over where it was. -/
theorem mem_loopVar?_iff (h : List.Forall₂ (Renamed x y) sts sts') {z : String} (hx : z ≠ x)
    (hy : z ≠ y) : z ∈ sts'.filterMap loopVar? ↔ z ∈ sts.filterMap loopVar? := by
  have hstep : ∀ {st st' : Stmt}, Renamed x y st st' →
      (st'.loopVar? = some z ↔ st.loopVar? = some z) := by
    intro st st' hst
    rcases hst.loopVar with heq | ⟨heq, heq'⟩
    · rw [heq]
    · rw [heq, heq', Option.some_inj, Option.some_inj]
      exact iff_of_false hy.symm hx.symm
  simp only [List.mem_filterMap]
  induction h with
  | nil => rfl
  | cons hst _ ih => simp only [List.exists_mem_cons_iff, hstep hst, ih]

/-- As many bounds are no formulas as before, as conversion does not depend on
names. -/
theorem length_opaqueTexts (h : List.Forall₂ (Renamed x y) sts sts') :
    (opaqueTexts sts').length = (opaqueTexts sts).length := by
  rw [opaqueTexts, opaqueTexts, List.length_map, List.length_map]
  induction h with
  | nil => rfl
  | cons hst _ ih =>
      obtain ⟨ρ, -, heq⟩ := hst.bounds
      rw [List.flatMap_cons, List.flatMap_cons, List.length_append, List.length_append, heq,
        List.length_map, ih]

end Stmt

end CostAnalysis
