import CostAnalysis.Source.Parser
import Mathlib.Data.List.Basic
import Mathlib.Data.List.TakeWhile

/-!
# Operator precedence

A chain of names with operators between them is read by precedence climbing.  It
is refused exactly if two comparisons stand in it with no `and` or `or` between
them; otherwise the tree that is read has the chain as its traversal from left
to right, and is grouped as the table of operators says
(`Parse.expression_chain`).

**What a reader takes.**  A reader of operators of at least some strength takes
the links of the chain up to the first weaker one (`Parse.binary_outcome`).  So
behind a right operand the next operator is weaker than that operand had to be,
and what was read so far fits as the left operand of that operator.  This is the
invariant of the loop (`Parse.Fits`).

**Why one check is enough.**  A comparison is refused only right behind the
right operand of another one.  But what stands between two comparisons without
an `and` or `or` are stronger operators, which belong to that operand
(`Link.Splits.not_chainsAt`).
-/

namespace CostAnalysis

/-! ## The grammar of operators

What the table of operators promises is stated about trees alone, with no reader
in sight: an operator at the root, the operands of which are at least as strong
as its associativity asks for (`Expr.Grouped`).  A tree together with the order
of its operands is decided by that. -/

/-- The rule of an operator. -/
def Infix.rule : Infix → InfixRule
  | .binary .or => ⟨InfixRule.orLevel, .left, .binary .or⟩
  | .binary .and => ⟨InfixRule.andLevel, .left, .binary .and⟩
  | .compare op => ⟨InfixRule.compareLevel, .forbidden, .compare op⟩
  | .binary .add => ⟨InfixRule.additiveLevel, .left, .binary .add⟩
  | .binary .sub => ⟨InfixRule.additiveLevel, .left, .binary .sub⟩
  | .binary .mul => ⟨InfixRule.multiplicativeLevel, .left, .binary .mul⟩
  | .binary .div => ⟨InfixRule.multiplicativeLevel, .left, .binary .div⟩
  | .binary .intDiv => ⟨InfixRule.multiplicativeLevel, .left, .binary .intDiv⟩
  | .binary .mod => ⟨InfixRule.multiplicativeLevel, .left, .binary .mod⟩
  | .binary .pow => ⟨InfixRule.powerLevel, .right, .binary .pow⟩

namespace InfixRule

variable {k : TokenKind} {r r' : InfixRule}

/-- The strength that the left operand must at least have. -/
def leftLevel (r : InfixRule) : ℕ :=
  if r.grouping = .left then r.precedence else r.precedence + 1

/-- The rule of a token is that of the operator it builds. -/
theorem rule_builds (h : of? k = some r) : r.builds.rule = r := by
  cases k <;> cases h <;> rfl

/-- The strength of an operator decides how it is grouped. -/
theorem grouping_eq (h : of? k = some r) : r.grouping =
    if r.precedence = powerLevel then .right
    else if r.precedence = compareLevel then .forbidden else .left := by
  cases k <;> cases h <;> rfl

/-- Comparisons have a level of their own, with just `and` and `or` below it. -/
theorem levels (h : of? k = some r) : orLevel ≤ r.precedence ∧
    ((∃ op, r.builds = .compare op) ↔ r.precedence = compareLevel) ∧
    (r.builds = .binary .and ∨ r.builds = .binary .or ↔ r.precedence < compareLevel) := by
  cases k <;> cases h <;>
    simp [compareLevel, orLevel, andLevel, additiveLevel, multiplicativeLevel, powerLevel]

end InfixRule

namespace Expr

/-- The rule of the operator at the root, with its operands. -/
def node? : Expr → Option (InfixRule × Expr × Expr)
  | .binary op a b => some ((Infix.binary op).rule, a, b)
  | .compare op a b => some ((Infix.compare op).rule, a, b)
  | _ => none

/-- The operands and the operators between them, from left to right. -/
def inOrder : Expr → List (Expr ⊕ Infix)
  | .binary op a b => inOrder a ++ .inr (.binary op) :: inOrder b
  | .compare op a b => inOrder a ++ .inr (.compare op) :: inOrder b
  | e => [.inl e]

/-- If there is an operator at the root, it is at least of the given
strength. -/
def Above (least : ℕ) (e : Expr) : Prop :=
  ∀ r a b, e.node? = some (r, a, b) → least ≤ r.precedence

/-- What has an operator at its root is as strong as this operator. -/
theorem Above.of_node {least : ℕ} {e a b : Expr} {r : InfixRule} (h : e.node? = some (r, a, b))
    (hleast : least ≤ r.precedence) : e.Above least := by
  intro r' a' b' h'
  obtain rfl := (Prod.mk.inj (Option.some.inj (h.symm.trans h'))).1
  exact hleast

/-- What has no operator at its root fits everywhere. -/
theorem Above.of_operand {least : ℕ} {e : Expr} (h : e.node? = none) : e.Above least := by
  intro r a b h'
  rw [h] at h'
  cases h'

/-- At every operator the operands bind more strongly than it, or as strongly
where operators of its strength are grouped on that side. -/
inductive Grouped : Expr → Prop
  | operand {e : Expr} (h : e.node? = none) : Grouped e
  | node {e a b : Expr} {r : InfixRule} (h : e.node? = some (r, a, b)) (ha : Grouped a)
      (hb : Grouped b) (hleft : a.Above r.leftLevel) (hright : b.Above r.rightLevel) : Grouped e

end Expr

namespace InfixRule

variable {k : TokenKind} {r : InfixRule}

/-- What an operator builds has this operator at its root, over the operands
that it was given. -/
theorem node?_build (h : of? k = some r) (a b : Expr) : (r.build a b).node? = some (r, a, b) := by
  have hrule := rule_builds h
  unfold build
  cases hbuilds : r.builds <;> rw [hbuilds] at hrule <;> simp [Expr.node?, hrule]

theorem inOrder_build (r : InfixRule) (a b : Expr) :
    (r.build a b).inOrder = a.inOrder ++ .inr r.builds :: b.inOrder := by
  unfold build
  cases r.builds <;> rfl

end InfixRule

/-! ## Chains

A chain is its first name and a list of links, that is of operators with the
name behind each.  Everything that a reader does to a chain can be said by
cutting that list. -/

/-- An operator with the name behind it. -/
structure Link where
  operator : Token
  rule : InfixRule
  operand : Token
  rule_eq : InfixRule.of? operator.kind = some rule
  kind_operand : operand.kind = .identifier

namespace Link

variable {l m b : Link} {ls xs ys : List Link}

/-- The tokens of a link. -/
def tokens (l : Link) : List Token :=
  [l.operator, l.operand]

/-- A link of the given kind and name, without a place. -/
def ofKind (k : TokenKind) {rule : InfixRule} (h : InfixRule.of? k = some rule) (name : String) :
    Link :=
  ⟨⟨k, k.text, {}⟩, rule, ⟨.identifier, name, {}⟩, h, rfl⟩

/-- What a link adds to a traversal. -/
def symbols (l : Link) : List (Expr ⊕ Infix) :=
  [.inr l.rule.builds, .inl (.var l.operand.text)]

/-- The operator is a comparison. -/
def Compares (l : Link) : Prop :=
  ∃ op, l.rule.builds = .compare op

/-- The operator is `and` or `or`. -/
def Joins (l : Link) : Prop :=
  l.rule.builds = .binary .and ∨ l.rule.builds = .binary .or

/-- A comparison stands in the chain with no `and` or `or` before it. -/
def MeetsAt (links : List Link) (b : Link) : Prop :=
  ∃ between after, links = between ++ b :: after ∧ b.Compares ∧ ∀ l ∈ between, ¬ l.Joins

/-- Two comparisons stand in the chain, of which `b` is the second, with no
`and` or `or` between them. -/
def ChainsAt (links : List Link) (b : Link) : Prop :=
  ∃ before a after, links = before ++ a :: after ∧ a.Compares ∧ MeetsAt after b

/-! ### Levels

The strength of an operator is compared with the least strength that a reader
accepts.  Each operand of an operator has to be at least as strong as the
operator itself, or stronger, and on which sides it has to be stronger is its
grouping. -/

/-- The operator has at least the given strength. -/
def atLeast (least : ℕ) (l : Link) : Bool :=
  least ≤ l.rule.precedence

theorem atLeast_iff {least : ℕ} : atLeast least l = true ↔ least ≤ l.rule.precedence :=
  decide_eq_true_iff

/-- A reader that takes weaker operators takes stronger ones as well. -/
theorem weaken {least strong : ℕ} (h : least ≤ strong) (hl : atLeast strong l = true) :
    atLeast least l = true :=
  atLeast_iff.mpr (h.trans (atLeast_iff.mp hl))

/-- `or` is the weakest operator, so that a reader that starts there takes the
whole chain. -/
theorem orLevel_le (l : Link) : InfixRule.orLevel ≤ l.rule.precedence :=
  (InfixRule.levels l.rule_eq).1

theorem compares_iff : l.Compares ↔ l.rule.precedence = InfixRule.compareLevel :=
  (InfixRule.levels l.rule_eq).2.1

theorem joins_iff : l.Joins ↔ l.rule.precedence < InfixRule.compareLevel :=
  (InfixRule.levels l.rule_eq).2.2

/-- Comparisons are the operators that must not follow each other. -/
theorem grouping_eq_forbidden_iff : l.rule.grouping = .forbidden ↔ l.Compares := by
  rw [compares_iff, InfixRule.grouping_eq l.rule_eq]
  split
  · next h => simp [h, InfixRule.powerLevel, InfixRule.compareLevel]
  · split <;> simp_all

/-- The right operand of an operator may be as strong as the operator where this
groups to the right, and must be stronger where it does not. -/
theorem rightLevel_cases (l : Link) :
    l.rule.grouping = .right ∧ l.rule.rightLevel = l.rule.precedence ∨
      l.rule.grouping ≠ .right ∧ l.rule.rightLevel = l.rule.precedence + 1 := by
  by_cases hright : l.rule.grouping = .right
  · exact .inl ⟨hright, if_pos hright⟩
  · exact .inr ⟨hright, if_neg hright⟩

/-- **An operator fits into the next one** if that is too weak for its right
operand, and is no comparison behind a comparison. -/
theorem leftLevel_le (hlt : m.rule.precedence < l.rule.rightLevel)
    (hchain : l.Compares → m.rule.precedence ≠ l.rule.precedence) :
    m.rule.leftLevel ≤ l.rule.precedence := by
  have hsucc : m.rule.leftLevel ≤ m.rule.precedence + 1 := by
    unfold InfixRule.leftLevel
    split <;> omega
  rcases l.rightLevel_cases with ⟨-, hlevel⟩ | ⟨hright, hlevel⟩
  · omega
  · by_cases hsame : m.rule.precedence = l.rule.precedence
    · -- both are grouped in the same way, and only to the left is left
      have hgrouping : m.rule.grouping = l.rule.grouping := by
        rw [InfixRule.grouping_eq m.rule_eq, InfixRule.grouping_eq l.rule_eq, hsame]
      have hleft : m.rule.grouping = .left := by
        rw [hgrouping]
        cases h : l.rule.grouping with
        | left => rfl
        | right => exact absurd h hright
        | forbidden => exact absurd hsame (hchain (grouping_eq_forbidden_iff.mp h))
      rw [InfixRule.leftLevel, if_pos hleft, hsame]
    · omega

/-- The first link that is taken is the first of all. -/
theorem mem_head?_takeWhile {least : ℕ} : m ∈ (ls.takeWhile (atLeast least)).head? ↔
    m ∈ ls.head? ∧ least ≤ m.rule.precedence := by
  rw [List.head?_takeWhile, Option.mem_filter_iff, atLeast_iff]

/-- What stronger operators take is taken first. -/
theorem takeWhile_atLeast {least strong : ℕ} (h : least ≤ strong) (ls : List Link) :
    ls.takeWhile (atLeast least) = ls.takeWhile (atLeast strong) ++
      (ls.dropWhile (atLeast strong)).takeWhile (atLeast least) := by
  conv_lhs => rw [← List.takeWhile_append_dropWhile (p := atLeast strong) (l := ls)]
  exact List.takeWhile_append_of_pos fun m hm => weaken h (List.mem_takeWhile_imp hm)

/-- What a reader of weaker operators leaves can be found behind what a reader
of stronger ones takes. -/
theorem dropWhile_atLeast {least strong : ℕ} (h : least ≤ strong) (ls : List Link) :
    ls.dropWhile (atLeast least) = (ls.dropWhile (atLeast strong)).dropWhile (atLeast least) := by
  conv_lhs => rw [← List.takeWhile_append_dropWhile (p := atLeast strong) (l := ls)]
  exact List.dropWhile_append_of_pos fun m hm => weaken h (List.mem_takeWhile_imp hm)

/-! ### Comparisons in a chain

Whether two comparisons meet is a statement about the list, so it has to be
divided in the way in which a reader divides it: the links that belong to a
right operand, and those behind them. -/

/-- A comparison is met at the first link or, if that is no `and` or `or`,
behind it. -/
theorem meetsAt_cons : MeetsAt (l :: ls) b ↔ l = b ∧ b.Compares ∨ ¬ l.Joins ∧ MeetsAt ls b := by
  constructor
  · rintro ⟨between, after, hls, hb, hno⟩
    rcases List.cons_eq_append_iff.mp hls with ⟨rfl, hcons⟩ | ⟨between, rfl, rfl⟩
    · exact .inl ⟨(List.cons.inj hcons).1.symm, hb⟩
    · obtain ⟨hl, hno⟩ := List.forall_mem_cons.mp hno
      exact .inr ⟨hl, between, after, rfl, hb, hno⟩
  · rintro (⟨rfl, hb⟩ | ⟨hl, between, after, rfl, hb, hno⟩)
    · exact ⟨[], ls, rfl, hb, List.forall_mem_nil _⟩
    · exact ⟨l :: between, after, rfl, hb, List.forall_mem_cons.mpr ⟨hl, hno⟩⟩

/-- Two comparisons chain from the first link on, or behind it. -/
theorem chainsAt_cons : ChainsAt (l :: ls) b ↔ l.Compares ∧ MeetsAt ls b ∨ ChainsAt ls b := by
  constructor
  · rintro ⟨before, a, after, hls, ha, hmeets⟩
    rcases List.cons_eq_append_iff.mp hls with ⟨rfl, hcons⟩ | ⟨before, rfl, rfl⟩
    · obtain ⟨rfl, rfl⟩ := List.cons.inj hcons
      exact .inl ⟨ha, hmeets⟩
    · exact .inr ⟨before, a, after, rfl, ha, hmeets⟩
  · rintro (⟨hl, hmeets⟩ | ⟨before, a, after, rfl, ha, hmeets⟩)
    · exact ⟨[], l, ls, rfl, hl, hmeets⟩
    · exact ⟨l :: before, a, after, rfl, ha, hmeets⟩

/-- No comparison is met in the empty chain. -/
theorem not_meetsAt_nil : ¬ MeetsAt [] b := by
  rintro ⟨between, after, hnil, -⟩
  simp at hnil

theorem not_chainsAt_nil : ¬ ChainsAt [] b := by
  rintro ⟨before, a, after, hnil, -⟩
  simp at hnil

/-- The comparison that is met is one of the chain. -/
theorem MeetsAt.mem (h : MeetsAt ls b) : b ∈ ls ∧ b.Compares := by
  obtain ⟨between, after, rfl, hb, -⟩ := h
  exact ⟨List.mem_append_right _ List.mem_cons_self, hb⟩

/-- What is met at the front of a chain is met in the chain. -/
theorem MeetsAt.append_right (h : MeetsAt xs b) (ys : List Link) : MeetsAt (xs ++ ys) b := by
  obtain ⟨between, after, rfl, hb, hno⟩ := h
  exact ⟨between, after ++ ys, by simp, hb, hno⟩

/-- A part of a chain that chains makes the whole of it chain. -/
theorem ChainsAt.of_infix (h : ChainsAt xs b) (hys : xs <:+: ys) : ChainsAt ys b := by
  obtain ⟨before, a, after, rfl, ha, hmeets⟩ := h
  obtain ⟨first, last, rfl⟩ := hys
  exact ⟨first ++ before, a, after ++ last, by simp, ha, hmeets.append_right last⟩

/-- Nothing is met beyond an `and` or `or`. -/
theorem meetsAt_append (hys : ∀ m ∈ ys.head?, m.Joins) (h : MeetsAt (xs ++ ys) b) :
    MeetsAt xs b := by
  induction xs with
  | nil =>
      cases ys with
      | nil => exact absurd h not_meetsAt_nil
      | cons m ys =>
          have hm : m.Joins := hys m rfl
          rcases meetsAt_cons.mp h with ⟨rfl, hb⟩ | ⟨hno, -⟩
          · exact absurd (compares_iff.mp hb) (joins_iff.mp hm).ne
          · exact absurd hm hno
  | cons l xs ih =>
      rw [List.cons_append, meetsAt_cons] at h
      exact meetsAt_cons.mpr (h.imp_right (And.imp_right ih))

/-- An `and` or `or` divides a chain into two of which each is checked alone. -/
theorem chainsAt_append_of_joins (hys : ∀ m ∈ ys.head?, m.Joins) (h : ChainsAt (xs ++ ys) b) :
    ChainsAt xs b ∨ ChainsAt ys b := by
  induction xs with
  | nil => exact .inr h
  | cons l xs ih =>
      rw [List.cons_append, chainsAt_cons] at h
      rcases h with ⟨hl, hmeets⟩ | h
      · exact .inl (chainsAt_cons.mpr (.inl ⟨hl, meetsAt_append hys hmeets⟩))
      · exact (ih h).imp_left fun h => chainsAt_cons.mpr (.inr h)

/-- Operators that are no comparisons do not matter in front. -/
theorem chainsAt_append_of_not_compares (hxs : ∀ m ∈ xs, ¬ m.Compares)
    (h : ChainsAt (xs ++ ys) b) : ChainsAt ys b := by
  induction xs with
  | nil => exact h
  | cons l xs ih =>
      obtain ⟨hl, hxs⟩ := List.forall_mem_cons.mp hxs
      rw [List.cons_append, chainsAt_cons] at h
      exact ih hxs (h.resolve_left fun h => hl h.1)

/-- The links that the right operand of an operator takes, and what follows
them. -/
structure Splits (l : Link) (taken others : List Link) : Prop where
  taken_level : ∀ m ∈ taken, l.rule.rightLevel ≤ m.rule.precedence
  others_level : ∀ m ∈ others.head?, m.rule.precedence < l.rule.rightLevel

/-- Links are divided at the first one that the right operand cannot take. -/
theorem splits (l : Link) (ls : List Link) (least : ℕ) :
    Splits l (ls.takeWhile (atLeast l.rule.rightLevel))
      ((ls.dropWhile (atLeast l.rule.rightLevel)).takeWhile (atLeast least)) where
  taken_level m hm := atLeast_iff.mp (List.mem_takeWhile_imp hm)
  others_level m hm := by
    rw [mem_head?_takeWhile, ← List.find?_not_eq_head?_dropWhile] at hm
    have hnot := List.find?_some hm.1
    rw [Bool.not_eq_true', ← Bool.not_eq_true, atLeast_iff] at hnot
    exact Nat.not_le.mp hnot

/-- **A comparison behind the right operand** of another one chains with it. -/
theorem Splits.chainsAt {taken others : List Link} (h : Splits l taken (b :: others))
    (hl : l.Compares) (hb : b.rule.precedence = l.rule.precedence) :
    ChainsAt (l :: (taken ++ b :: others)) b := by
  have hlevel := compares_iff.mp hl
  refine ⟨[], l, _, rfl, hl, taken, others, rfl, compares_iff.mpr (hb.trans hlevel), ?_⟩
  intro m hm hjoins
  have hstrong := h.taken_level m hm
  have hweak := joins_iff.mp hjoins
  rcases l.rightLevel_cases with ⟨-, hright⟩ | ⟨-, hright⟩ <;> omega

/-- **Nothing else chains** than what chains in the right operand or behind
it. -/
theorem Splits.not_chainsAt {taken others : List Link} (h : Splits l taken others)
    (hnext : ∀ m ∈ others.head?, l.Compares → m.rule.precedence ≠ l.rule.precedence)
    (htaken : ¬ ChainsAt taken b) (hothers : ¬ ChainsAt others b) :
    ¬ ChainsAt (l :: (taken ++ others)) b := by
  intro hchains
  rw [← List.cons_append] at hchains
  by_cases hstrong : InfixRule.compareLevel < l.rule.precedence
  · -- no comparison up to the end of the right operand
    refine hothers (chainsAt_append_of_not_compares (List.forall_mem_cons.mpr ⟨?_, ?_⟩) hchains)
    · exact fun hl => absurd (compares_iff.mp hl) hstrong.ne'
    · intro m hm hm'
      have hlevel := h.taken_level m hm
      have := compares_iff.mp hm'
      rcases l.rightLevel_cases with ⟨-, hright⟩ | ⟨-, hright⟩ <;> omega
  · have hjoins : ∀ m ∈ others.head?, m.Joins := by
      intro m hm
      have hlevel := h.others_level m hm
      have hne := hnext m hm
      rw [compares_iff] at hne
      rw [joins_iff]
      rcases l.rightLevel_cases with ⟨-, hright⟩ | ⟨-, hright⟩ <;> omega
    refine (chainsAt_append_of_joins hjoins hchains).elim (fun hchains => ?_) hothers
    refine (chainsAt_cons.mp hchains).elim (fun ⟨hl, hmeets⟩ => ?_) htaken
    -- the right operand of a comparison has no comparison outside of its own
    -- parts
    have hlevel := h.taken_level b hmeets.mem.1
    have hb := compares_iff.mp hmeets.mem.2
    have hl' := compares_iff.mp hl
    have hforbidden := grouping_eq_forbidden_iff.mpr hl
    rcases l.rightLevel_cases with ⟨hgrouping, -⟩ | ⟨-, hright⟩
    · rw [hforbidden] at hgrouping
      cases hgrouping
    · omega

end Link

/-! ## Reading a chain

First what the readers below the operators do with one name of the chain, then
one step of the loop (`Parse.climb_step`), then the loop by induction on the
number of links that are left, and from it the whole expression. -/

namespace Parse

section Run

variable {α β : Type} {f : α → Parse β} {a : α} {c c' : Cursor} {e : SyntaxError}

theorem run_kind_bind (f : TokenKind → Parse β) (c : Cursor) :
    (kind >>= f).run c = (f c.current.kind).run c := rfl

theorem run_peek_bind (f : Token → Parse β) (c : Cursor) :
    (peek >>= f).run c = (f c.current).run c := rfl

/-- The number of tokens that remain bounds the rounds of a loop. -/
theorem run_remaining_bind (f : ℕ → Parse β) (c : Cursor) :
    (remaining >>= f).run c = (f (c.rest.length + 1)).run c := rfl

theorem run_advance_bind (f : Token → Parse β) (c : Cursor) :
    (advance >>= f).run c = (f c.current).run (step c) := rfl

/-- Behind a run with a result the rest of the reader goes on. -/
theorem run_bind_of_ok {m : Parse α} (h : m.run c = .ok (a, c')) :
    (m >>= f).run c = (f a).run c' := by
  rw [StateT.run_bind, h]
  rfl

/-- Behind a refusal nothing is read. -/
theorem run_bind_of_error {m : Parse α} (h : m.run c = .error e) :
    (m >>= f).run c = .error e := by
  rw [StateT.run_bind, h]
  rfl

end Run

/-- A token of this kind ends a chain: it is no operator, and makes no longer
name, no call and no element of the name before it. -/
structure EndsChain (k : TokenKind) : Prop where
  of?_eq_none : InfixRule.of? k = none
  ne_leftParen : k ≠ .leftParen
  ne_leftBracket : k ≠ .leftBracket
  ne_dot : k ≠ .dot

/-- The tokens of a chain from its first operator on, and what follows it. -/
def chainTokens (links : List Link) (stop : Token) (rest : List Token) : List Token :=
  links.flatMap Link.tokens ++ stop :: rest

/-- The cursor behind a name of a chain, before the remaining links. -/
def behind (t : Token) (links : List Link) (stop : Token) (rest : List Token) : Cursor :=
  step ⟨t, chainTokens links stop rest, t.line⟩

/-- The last name of a chain. -/
def lastOperand (t : Token) (links : List Link) : Token :=
  links.foldl (fun _ l => l.operand) t

/-- What a reader of operators of at least some strength may do where it has
read `start` and has to take the links `taken`: it refuses two comparisons
without an `and` or `or` between them, or it returns the expression of all it
has read, before the links `others`. -/
inductive Outcome (least : ℕ) (start : List (Expr ⊕ Infix)) (t : Token) (taken others : List Link)
    (stop : Token) (rest : List Token) : Except SyntaxError (Expr × Cursor) → Prop
  | refused {b : Link} (h : Link.ChainsAt taken b) :
      Outcome least start t taken others stop rest
        (.error ⟨.chainedComparison b.operator, b.operator.position⟩)
  | read {e : Expr} (inOrder_eq : e.inOrder = start ++ taken.flatMap Link.symbols)
      (grouped : e.Grouped) (above : e.Above least) (not_chainsAt : ∀ b, ¬ Link.ChainsAt taken b) :
      Outcome least start t taken others stop rest
        (.ok (e, behind (lastOperand t taken) others stop rest))

variable {t stop : Token} {rest : List Token} {links : List Link} {least depth : ℕ}

theorem length_chainTokens (links : List Link) (stop : Token) (rest : List Token) :
    (chainTokens links stop rest).length = 2 * links.length + (rest.length + 1) := by
  simp [chainTokens, Link.tokens, Nat.mul_comm]

/-- There are more tokens left than links. -/
theorem length_lt_remaining (t : Token) (links : List Link) (stop : Token) (rest : List Token) :
    links.length < (behind t links stop rest).rest.length + 1 := by
  cases links with
  | nil => exact Nat.succ_pos _
  | cons l ls =>
      show ls.length + 1 < (chainTokens ls stop rest).length + 1 + 1
      rw [length_chainTokens]
      omega

theorem step_chain (t : Token) (links : List Link) (stop : Token) (rest : List Token) (line : ℕ) :
    step ⟨t, chainTokens links stop rest, line⟩ = behind t links stop rest := by
  cases links <;> rfl

theorem of?_behind_nil (hstop : EndsChain stop.kind) :
    InfixRule.of? (behind t [] stop rest).current.kind = none :=
  hstop.of?_eq_none

theorem of?_behind_cons {l : Link} {ls : List Link} :
    InfixRule.of? (behind t (l :: ls) stop rest).current.kind = some l.rule :=
  l.rule_eq

/-- Behind a name stands an operator, or the token that ends the chain. -/
theorem endsName_behind (hstop : EndsChain stop.kind) (t : Token) (links : List Link)
    (rest : List Token) :
    (behind t links stop rest).current.kind ≠ .leftParen ∧
      (behind t links stop rest).current.kind ≠ .leftBracket ∧
      (behind t links stop rest).current.kind ≠ .dot := by
  cases links with
  | nil => exact ⟨hstop.ne_leftParen, hstop.ne_leftBracket, hstop.ne_dot⟩
  | cons l ls =>
      have hrule := l.rule_eq
      refine ⟨fun hkind => ?_, fun hkind => ?_, fun hkind => ?_⟩
      all_goals
        rw [show l.operator.kind = _ from hkind] at hrule
        cases hrule

/-- A name without fields behind it. -/
theorem run_dotted {c : Cursor} (h : c.current.kind ≠ .dot) (fuel : ℕ) (name : String) :
    (dotted (fuel + 1) name).run c = .ok (name, c) := by
  have hnot : (c.current.kind = .dot && (c.rest.headD c.current).kind = .identifier) = false := by
    rw [decide_eq_false h, Bool.false_and]
  rw [dotted, run_kind_bind]
  show (if (c.current.kind = .dot && (c.rest.headD c.current).kind = .identifier) = true then _
    else Pure.pure name : Parse String).run c = _
  rw [hnot]
  rfl

/-- An expression without indices behind it. -/
theorem run_indexed {c : Cursor} (h : c.current.kind ≠ .leftBracket) (reader : Parse Expr)
    (fuel : ℕ) (e : Expr) : (indexed reader (fuel + 1) e).run c = .ok (e, c) := by
  have haccept : (accept .leftBracket).run c = .ok (false, c) := by
    rw [accept, run_kind_bind, if_neg h]
    rfl
  rw [indexed, run_bind_of_ok haccept]
  rfl

/-- A name is read as it is. -/
theorem run_operand (hstop : EndsChain stop.kind) (ht : t.kind = .identifier) (line : ℕ)
    (b : ℕ → Parse Expr) :
    (operand b).run ⟨t, chainTokens links stop rest, line⟩ =
      .ok (.var t.text, behind t links stop rest) := by
  obtain ⟨hparen, hbracket, hdot⟩ := endsName_behind hstop t links rest
  -- a name is an operand by itself: no call, no index and no longer name
  -- follows it
  have hprimary : (primary (b InfixRule.orLevel)).run ⟨t, chainTokens links stop rest, line⟩ =
      .ok (.var t.text, behind t links stop rest) := by
    rw [primary, run_peek_bind]
    dsimp only
    rw [ht]
    dsimp only
    rw [run_advance_bind, step_chain, run_kind_bind, if_neg hparen, run_remaining_bind,
      run_bind_of_ok (run_dotted hdot _ _)]
    rfl
  rw [operand, run_kind_bind]
  dsimp only
  rw [ht]
  dsimp only
  rw [run_bind_of_ok hprimary, run_remaining_bind]
  exact run_indexed hbracket _ _ _

/-- What follows the right operand of an operator: a comparison behind a
comparison is refused. -/
theorem refuseChain_cases (hstop : EndsChain stop.kind) (l : Link) (t : Token)
    (links : List Link) :
    (∃ b ls, links = b :: ls ∧ l.Compares ∧ b.rule.precedence = l.rule.precedence ∧
      (refuseChain l.rule).run (behind t links stop rest) =
        .error ⟨.chainedComparison b.operator, b.operator.position⟩) ∨
    (∀ b ∈ links.head?, l.Compares → b.rule.precedence ≠ l.rule.precedence) ∧
      (refuseChain l.rule).run (behind t links stop rest) = .ok ((), behind t links stop rest) := by
  rw [← Link.grouping_eq_forbidden_iff]
  by_cases hforbidden : l.rule.grouping = .forbidden
  · rw [refuseChain, if_pos hforbidden, run_kind_bind]
    cases links with
    | nil =>
        refine .inr ⟨fun b hb => absurd hb (Option.not_mem_none b), ?_⟩
        rw [of?_behind_nil hstop]
        rfl
    | cons b ls =>
        rw [of?_behind_cons]
        dsimp only
        -- all operators that must not chain are of one strength
        by_cases hsame : b.rule.precedence = l.rule.precedence
        · refine .inl ⟨b, ls, rfl, hforbidden, hsame, ?_⟩
          rw [if_pos hsame]
          rfl
        · refine .inr ⟨fun b' hb' _ => Option.some.inj hb' ▸ hsame, ?_⟩
          rw [if_neg hsame]
          rfl
  · refine .inr ⟨fun _ _ h => absurd h hforbidden, ?_⟩
    rw [refuseChain, if_neg hforbidden]
    rfl

/-- What a reader does behind the right operand of `l`, where nothing chains
with what was read, is what it does with the chain from `l` on. -/
theorem Outcome.from_operator {start : List (Expr ⊕ Infix)} {l : Link}
    {taken others after : List Link} {result : Except SyntaxError (Expr × Cursor)}
    (hrest : Outcome least (start ++ (l :: taken).flatMap Link.symbols)
      (lastOperand l.operand taken) others after stop rest result)
    (hchains : ∀ b, ¬ Link.ChainsAt others b → ¬ Link.ChainsAt (l :: (taken ++ others)) b) :
    Outcome least start t (l :: (taken ++ others)) after stop rest result := by
  cases hrest with
  | refused h =>
      exact .refused (h.of_infix ⟨l :: taken, [], by rw [List.append_nil, List.cons_append]⟩)
  | read inOrder_eq grouped above not_chainsAt =>
      have hlast : lastOperand (lastOperand l.operand taken) others =
          lastOperand t (l :: (taken ++ others)) :=
        (List.foldl_append ..).symm
      rw [hlast]
      refine .read ?_ grouped above fun b => hchains b (not_chainsAt b)
      rw [inOrder_eq, List.append_assoc, ← List.flatMap_append, List.cons_append]

/-- The invariant of the loop: what was read fits as the left operand of the
next operator, if that is for this reader to take. -/
structure Fits (least : ℕ) (left : Expr) (links : List Link) : Prop where
  grouped : left.Grouped
  above : left.Above least
  above_next : ∀ l ∈ links.head?, least ≤ l.rule.precedence → left.Above l.rule.leftLevel

/-- **The invariant is kept** by an operator that no comparison is refused
behind. -/
theorem Fits.build {l : Link} {ls : List Link} {left right : Expr} (h : Fits least left (l :: ls))
    (hleast : least ≤ l.rule.precedence) (hgrouped : right.Grouped)
    (habove : right.Above l.rule.rightLevel)
    (hnext : ∀ m ∈ (ls.dropWhile (Link.atLeast l.rule.rightLevel)).head?,
      l.Compares → m.rule.precedence ≠ l.rule.precedence) :
    Fits least (l.rule.build left right) (ls.dropWhile (Link.atLeast l.rule.rightLevel)) := by
  have hnode := InfixRule.node?_build l.rule_eq left right
  refine ⟨.node hnode h.grouped hgrouped (h.above_next l rfl hleast) habove,
    .of_node hnode hleast, fun m hm hmleast => .of_node hnode (Link.leftLevel_le ?_ (hnext m hm))⟩
  exact (Link.splits l ls least).others_level m (Link.mem_head?_takeWhile.mpr ⟨hm, hmleast⟩)

/-- **One operator**, that this reader has to take, with its right operand. -/
theorem climb_step (hstop : EndsChain stop.kind) {reader : ℕ → Parse Expr} {l : Link}
    {ls : List Link} {left : Expr} {fuel : ℕ} (hfits : Fits least left (l :: ls))
    (hleast : least ≤ l.rule.precedence)
    (hright : Outcome l.rule.rightLevel [.inl (.var l.operand.text)] l.operand
      (ls.takeWhile (Link.atLeast l.rule.rightLevel))
      (ls.dropWhile (Link.atLeast l.rule.rightLevel)) stop rest
      ((reader l.rule.rightLevel).run ⟨l.operand, chainTokens ls stop rest, l.operator.line⟩))
    (hrest : ∀ {e u others}, others.length ≤ ls.length → Fits least e others →
      Outcome least e.inOrder u (others.takeWhile (Link.atLeast least))
        (others.dropWhile (Link.atLeast least)) stop rest
        ((climb reader least fuel e).run (behind u others stop rest))) :
    Outcome least left.inOrder t ((l :: ls).takeWhile (Link.atLeast least))
      ((l :: ls).dropWhile (Link.atLeast least)) stop rest
      ((climb reader least (fuel + 1) left).run (behind t (l :: ls) stop rest)) := by
  have hat : Link.atLeast least l = true := Link.atLeast_iff.mpr hleast
  have hlevel : least ≤ l.rule.rightLevel := by
    rcases l.rightLevel_cases with ⟨-, hright⟩ | ⟨-, hright⟩ <;> omega
  have hadvanced : step (behind t (l :: ls) stop rest) =
      ⟨l.operand, chainTokens ls stop rest, l.operator.line⟩ := rfl
  rw [climb, run_kind_bind, of?_behind_cons]
  dsimp only
  rw [if_neg (Nat.not_lt.mpr hleast), run_advance_bind, hadvanced, List.takeWhile_cons_of_pos hat,
    List.dropWhile_cons_of_pos hat, Link.takeWhile_atLeast hlevel, Link.dropWhile_atLeast hlevel]
  have hsplits := Link.splits l ls least
  have hlength := List.length_dropWhile_le (Link.atLeast l.rule.rightLevel) ls
  generalize hrun : (reader l.rule.rightLevel).run
    ⟨l.operand, chainTokens ls stop rest, l.operator.line⟩ = result at hright
  -- the right operand is refused, or it is read and the next operator is weaker
  -- than it
  cases hright with
  | refused hchains =>
      rw [run_bind_of_error hrun]
      exact .refused (hchains.of_infix ⟨[l], _, rfl⟩)
  | read hinOrder hgrouped habove htaken =>
      rw [run_bind_of_ok hrun]
      rcases refuseChain_cases hstop l _ (ls.dropWhile (Link.atLeast l.rule.rightLevel)) with
        ⟨b, bs, hcons, hcompares, hsame, hrefused⟩ | ⟨hnext, haccepted⟩
      · -- the next comparison is for this reader to take too
        have hb : Link.atLeast least b = true := Link.atLeast_iff.mpr (hsame ▸ hleast)
        rw [run_bind_of_error hrefused]
        rw [hcons, List.takeWhile_cons_of_pos hb] at hsplits ⊢
        exact .refused (hsplits.chainsAt hcompares hsame)
      -- otherwise the expression that was built fits before the next operator,
      -- and the loop goes on
      · let u := lastOperand l.operand (ls.takeWhile (Link.atLeast l.rule.rightLevel))
        have hbuilt := hrest (u := u) hlength (hfits.build hleast hgrouped habove hnext)
        rw [run_bind_of_ok haccepted]
        rw [InfixRule.inOrder_build, hinOrder] at hbuilt
        refine .from_operator hbuilt fun b hothers => ?_
        exact hsplits.not_chainsAt (fun m hm => hnext m (Link.mem_head?_takeWhile.mp hm).1)
          (htaken b) hothers

/-- **The loop over the operators** of at least some strength, given a reader of
right operands. -/
theorem climb_outcome (hstop : EndsChain stop.kind) {reader : ℕ → Parse Expr}
    (hreader : ∀ {strong : ℕ} {u : Token} {ls : List Link} (line : ℕ), ls.length < depth →
      u.kind = .identifier → Outcome strong [.inl (.var u.text)] u
        (ls.takeWhile (Link.atLeast strong)) (ls.dropWhile (Link.atLeast strong)) stop rest
        ((reader strong).run ⟨u, chainTokens ls stop rest, line⟩))
    {fuel : ℕ} {left : Expr} (hfuel : links.length < fuel) (hdepth : links.length ≤ depth)
    (hfits : Fits least left links) :
    Outcome least left.inOrder t (links.takeWhile (Link.atLeast least))
      (links.dropWhile (Link.atLeast least)) stop rest
      ((climb reader least fuel left).run (behind t links stop rest)) := by
  induction fuel generalizing links left t with
  | zero => exact absurd hfuel (Nat.not_lt_zero _)
  | succ fuel ih =>
    -- where the loop stops, what was read so far is returned
    have hreturned : ∀ {ls}, Outcome least left.inOrder t [] ls stop rest
        (.ok (left, behind t ls stop rest)) :=
      .read (List.append_nil _).symm hfits.grouped hfits.above fun b => Link.not_chainsAt_nil
    cases links with
    | nil =>
        rw [climb, run_kind_bind, of?_behind_nil hstop]
        exact hreturned
    | cons l ls =>
        rw [List.length_cons] at hfuel hdepth
        by_cases hweak : l.rule.precedence < least
        · -- the operator is left to a reader of weaker ones
          have hnot : ¬ Link.atLeast least l = true := fun h =>
            absurd (Link.atLeast_iff.mp h) (Nat.not_le.mpr hweak)
          rw [List.takeWhile_cons_of_neg hnot, List.dropWhile_cons_of_neg hnot, climb,
            run_kind_bind, of?_behind_cons]
          dsimp only
          rw [if_pos hweak]
          exact hreturned
        · exact climb_step hstop hfits (Nat.not_lt.mp hweak)
            (hreader l.operator.line hdepth l.kind_operand)
            fun hlength hbuilt => ih (by omega) (by omega) hbuilt

/-- **A reader of operators of at least some strength** takes the links up to
the first weaker one. -/
theorem binary_outcome (hstop : EndsChain stop.kind) (least : ℕ) (ht : t.kind = .identifier)
    (rest : List Token) (line : ℕ) (hdepth : links.length < depth) :
    Outcome least [.inl (.var t.text)] t (links.takeWhile (Link.atLeast least))
      (links.dropWhile (Link.atLeast least)) stop rest
      ((binary depth least).run ⟨t, chainTokens links stop rest, line⟩) := by
  induction depth generalizing t links least line with
  | zero => exact absurd hdepth (Nat.not_lt_zero _)
  | succ depth ih =>
      have hname : Fits least (.var t.text) links :=
        ⟨.operand rfl, .of_operand rfl, fun _ _ _ => .of_operand rfl⟩
      rw [binary, run_bind_of_ok (run_operand hstop ht line _), run_remaining_bind]
      exact climb_outcome hstop (fun line hlength hu => ih _ hu line hlength)
        (length_lt_remaining t links stop rest) (Nat.lt_succ_iff.mp hdepth) hname

/-- **Precedence climbing builds the right tree.**  A chain of names and
operators, behind which a token stands that ends it, is refused exactly if two
comparisons stand in it with no `and` or `or` between them, and then at the
second one of two such.  Otherwise it is consumed as a whole, and the tree has
it as its traversal and is grouped by strength. -/
theorem expression_chain (first : Token) (hfirst : first.kind = .identifier)
    (hstop : EndsChain stop.kind) (links : List Link) (rest : List Token) (line : ℕ) :
    ((∃ fault, expression.run ⟨first, chainTokens links stop rest, line⟩ = .error fault) ↔
      ∃ b, Link.ChainsAt links b) ∧
    (∀ fault, expression.run ⟨first, chainTokens links stop rest, line⟩ = .error fault →
      ∃ b, Link.ChainsAt links b ∧
        fault = ⟨.chainedComparison b.operator, b.operator.position⟩) ∧
    ∀ e c, expression.run ⟨first, chainTokens links stop rest, line⟩ = .ok (e, c) →
      c = ⟨stop, rest, (lastOperand first links).line⟩ ∧
      e.inOrder = .inl (.var first.text) :: links.flatMap Link.symbols ∧ e.Grouped := by
  have hdepth : links.length < (chainTokens links stop rest).length + 1 := by
    rw [length_chainTokens]
    omega
  have houtcome := binary_outcome hstop InfixRule.orLevel hfirst rest line hdepth
  -- all operators are at least as strong as `or`, so that the whole chain is
  -- taken
  have hall : ∀ l ∈ links, Link.atLeast InfixRule.orLevel l = true := fun l _ =>
    Link.atLeast_iff.mpr l.orLevel_le
  rw [List.takeWhile_eq_self_iff.mpr hall, List.dropWhile_eq_nil_iff.mpr hall] at houtcome
  have hrun : expression.run ⟨first, chainTokens links stop rest, line⟩ =
      (binary ((chainTokens links stop rest).length + 1) InfixRule.orLevel).run
        ⟨first, chainTokens links stop rest, line⟩ := by
    rw [expression, run_remaining_bind]
  rw [hrun]
  generalize (binary ((chainTokens links stop rest).length + 1) InfixRule.orLevel).run
    ⟨first, chainTokens links stop rest, line⟩ = result at houtcome
  cases houtcome with
  | @refused b hchains =>
      refine ⟨⟨fun _ => ⟨b, hchains⟩, fun _ => ⟨_, rfl⟩⟩, fun fault hfault => ?_, fun e c hok => ?_⟩
      · exact ⟨b, hchains, (Except.error.inj hfault).symm⟩
      · cases hok
  | @read e hinOrder hgrouped _ hnone =>
      refine ⟨⟨fun ⟨fault, hfault⟩ => ?_, fun ⟨b, hchains⟩ => absurd hchains (hnone b)⟩,
        fun fault hfault => ?_, fun e' c hok => ?_⟩
      · cases hfault
      · cases hfault
      · cases hok
        exact ⟨rfl, hinOrder, hgrouped⟩

/-- `a < b + c = d` is refused, and `a - b - c < d ^ e and f = g` is read. -/
theorem expression_chain_comparisons :
    (∃ fault, expression.run ⟨⟨.identifier, "a", {}⟩,
      chainTokens [.ofKind .less rfl "b", .ofKind .plus rfl "c", .ofKind .equal rfl "d"]
        ⟨.thenWord, "then", {}⟩ [], 1⟩ = .error fault) ∧
    ∃ e c, expression.run ⟨⟨.identifier, "a", {}⟩,
      chainTokens [.ofKind .minus rfl "b", .ofKind .minus rfl "c", .ofKind .less rfl "d",
        .ofKind .power rfl "e", .ofKind .andWord rfl "f", .ofKind .equal rfl "g"]
        ⟨.thenWord, "then", {}⟩ [], 1⟩ = .ok (e, c) ∧ e.Grouped := by
  have hstop : EndsChain (Token.kind ⟨.thenWord, "then", {}⟩) := by
    constructor <;> decide
  constructor
  · have hrefused := (expression_chain ⟨.identifier, "a", {}⟩ rfl hstop
      [.ofKind .less rfl "b", .ofKind .plus rfl "c", .ofKind .equal rfl "d"] [] 1).1
    refine hrefused.mpr ⟨.ofKind .equal rfl "d", ?_⟩
    simp [Link.chainsAt_cons, Link.meetsAt_cons, Link.compares_iff, Link.joins_iff, Link.ofKind,
      InfixRule.compareLevel, InfixRule.additiveLevel]
  · obtain ⟨hrefused, -, hread⟩ := expression_chain ⟨.identifier, "a", {}⟩ rfl hstop
      [.ofKind .minus rfl "b", .ofKind .minus rfl "c", .ofKind .less rfl "d",
        .ofKind .power rfl "e", .ofKind .andWord rfl "f", .ofKind .equal rfl "g"] [] 1
    cases hrun : expression.run _ with
    | error fault =>
        obtain ⟨b, hchains⟩ := hrefused.mp ⟨fault, hrun⟩
        simp [Link.chainsAt_cons, Link.meetsAt_cons, Link.compares_iff, Link.joins_iff, Link.ofKind,
          InfixRule.compareLevel, InfixRule.additiveLevel, InfixRule.andLevel, InfixRule.powerLevel,
          Link.not_meetsAt_nil, Link.not_chainsAt_nil] at hchains
        rcases hchains with ⟨rfl, hlevel⟩ | ⟨rfl, hlevel⟩ <;> cases hlevel
    | ok result => exact ⟨_, _, rfl, (hread result.1 result.2 hrun).2.2⟩

end Parse

end CostAnalysis
