import CostAnalysis.Proofs.Growth
import Mathlib.Algebra.BigOperators.Group.List.Basic

/-!
# Weights of classes

The powers of variables in a class are scalars, any of which may be the mark of
an overflow.  With a weight for each variable they add up to a number
(`Growth.Sums`): with the weight one for all of them to the total degree, with
the weight one for a single variable to its power.  A class has two such
weights, that of its powers and that of its logarithms (`Growth.Weighs`).

**The weights of a product are the sums of those of its factors**
(`Growth.Weighs.mul`), and for each kind of atom but two the weights of a power
are those of the atom, times the exponent (`Growth.exists_weighs_ofAtom`).  The
two are the extrema, whose class does not depend on the exponent at all.  So the
weights of a monomial are linear in the exponents of all other atoms
(`Growth.exists_weighs_ofMonomial`), which is what multiplies and scales
exponents is read from.
-/

namespace CostAnalysis

namespace Growth

/-! ## Lists of powers

A list of powers has a sum for every weight of its variables, as long as no
scalar overflows.  A write at a variable adds to the sum, and with it merging
two lists adds their sums. -/

/-- The powers add up to a number, each times the weight of its variable. -/
inductive Sums (w : String → ℚ) : List (String × Scalar) → ℚ → Prop
  | nil : Sums w [] 0
  | cons {v : String} {d : Scalar} {powers : List (String × Scalar)} {p q : ℚ}
      (hd : d.Denotes p) (hpowers : Sums w powers q) : Sums w ((v, d) :: powers) (w v * p + q)

namespace Sums

variable {w : String → ℚ} {xs ys : List (String × Scalar)} {p q : ℚ}

/-- One power counts with the weight of its variable. -/
theorem single (w : String → ℚ) (v : String) {d : Scalar} (hd : d.Denotes p) :
    Sums w [(v, d)] (w v * p) := by
  have hsum := Sums.cons (w := w) (v := v) hd .nil
  rwa [add_zero] at hsum

/-- The sums of two lists add up. -/
theorem append (hxs : Sums w xs p) (hys : Sums w ys q) : Sums w (xs ++ ys) (p + q) := by
  induction hxs with
  | nil => rwa [zero_add]
  | cons hd _ ih =>
      rw [add_assoc]
      exact .cons hd ih

theorem exists_of_append (h : Sums w (xs ++ ys) q) :
    ∃ p p', Sums w xs p ∧ Sums w ys p' ∧ q = p + p' := by
  induction xs generalizing q with
  | nil => exact ⟨0, q, .nil, h, (zero_add q).symm⟩
  | cons x xs ih =>
      cases h with
      | cons hd hrest =>
          obtain ⟨p, p', hxs, hys, rfl⟩ := ih hrest
          exact ⟨_, p', .cons hd hxs, hys, (add_assoc _ p p').symm⟩

/-- Every list adds up to some number; a mark may be taken for any. -/
theorem exists_sums (w : String → ℚ) : ∀ xs, ∃ q, Sums w xs q
  | [] => ⟨0, .nil⟩
  | (_, .exact p) :: xs =>
    let ⟨_, hxs⟩ := exists_sums w xs
    ⟨_, .cons (.exact p) hxs⟩
  | (_, .overflow) :: xs =>
    let ⟨_, hxs⟩ := exists_sums w xs
    ⟨_, .cons (Or.inr rfl : Scalar.overflow.Denotes 0) hxs⟩

/-- What is left out is zero. -/
theorem filter (h : Sums w xs q) : Sums w (xs.filter fun entry => !entry.2.isZero) q := by
  induction h with
  | nil => exact .nil
  | @cons v d powers p q hd _ ih =>
      cases hzero : d.isZero with
      | false =>
          rw [List.filter_cons_of_pos (by simp [hzero])]
          exact .cons hd ih
      | true =>
          rw [List.filter_cons_of_neg (by simp [hzero]), hd.eq_zero hzero, mul_zero, zero_add]
          exact ih

/-- A power that is zero is left out, and counts nothing. -/
theorem powers (w : String → ℚ) (v : String) {d : Scalar} (hd : d.Denotes p) :
    Sums w (Growth.powers v d) (w v * p) := by
  have hfilter : Growth.powers v d = [(v, d)].filter fun entry => !entry.2.isZero := by
    cases hzero : d.isZero <;> simp [Growth.powers, hzero]
  rw [hfilter]
  exact (single w v hd).filter

/-- Scaling the powers scales their sum. -/
theorem map_mul {factor : Scalar} {r : ℚ} (hfactor : factor.Denotes r) (h : Sums w xs q) :
    Sums w (xs.map fun entry => (entry.1, entry.2 * factor)) (r * q) := by
  induction h with
  | nil =>
      rw [mul_zero]
      exact .nil
  | cons hd _ ih =>
      rw [mul_add, mul_left_comm, mul_comm r]
      exact .cons (hd.mul hfactor) ih

/-- **One power more** adds to the number, whether or not the variable was
there. -/
theorem alter {v : String} {d : Scalar} (hd : d.Denotes p) (h : Sums w xs q) :
    Sums w (Assoc.alter v (fun old => some (old.getD 0 + d)) xs) (q + w v * p) := by
  obtain ⟨before, old?, after, rfl, -, -, halter⟩ :=
    Assoc.alter_cut v (fun v' h => (Std.LawfulEqOrd.eq_of_compare h).symm) xs
  obtain ⟨q, after', hfront, hafter, rfl⟩ := exists_of_append h
  obtain ⟨before', old, hbefore, hold, rfl⟩ := exists_of_append hfront
  -- the written entry weighs as much as the old one and what was added
  have hnew : Sums w (Assoc.entry v (some (old?.getD 0 + d))) (old + w v * p) := by
    cases old? with
    | none =>
        cases hold
        rw [zero_add]
        have hzero : (0 : Scalar).Denotes 0 := .exact 0
        have hsum := single w v (hzero.add hd)
        rwa [zero_add] at hsum
    | some d' =>
        cases hold with
        | cons hd' hnil =>
            cases hnil
            rw [add_zero, ← mul_add]
            exact single w v (hd'.add hd)
  rw [halter, add_assoc, add_comm after', ← add_assoc, add_assoc before']
  exact (hbefore.append hnew).append hafter

/-- **Powers of one variable are merged** by adding them, and others stay side
by side; neither changes the sum. -/
theorem addPowers (hxs : Sums w xs p) (hys : Sums w ys q) :
    Sums w (Growth.addPowers xs ys) (p + q) := by
  refine filter ?_
  induction hys generalizing xs p with
  | nil => rwa [add_zero]
  | cons hd _ ih =>
      rw [List.foldl_cons, ← add_assoc]
      exact ih (hxs.alter hd)

/-- With the weight one for all variables the powers add up to their total. -/
theorem total {s : Scalar} (hs : s.Denotes p) (h : Sums (fun _ => 1) xs q) :
    (xs.foldl (fun acc d => acc + d.2) s).Denotes (p + q) := by
  generalize hw : (fun _ : String => (1 : ℚ)) = w at h
  induction h generalizing s p with
  | nil => rwa [add_zero]
  | cons hd _ ih =>
      rw [List.foldl_cons, ← hw, one_mul, ← add_assoc]
      exact ih (hs.add hd)

end Sums

/-! ## Classes -/

/-- The weight of the powers and that of the logarithms of a class. -/
structure Weighs (w : String → ℚ) (g : Growth) (d l : ℚ) : Prop where
  degrees : Sums w g.degrees d
  logs : Sums w g.logs l

namespace Weighs

variable {w : String → ℚ} {g h : Growth} {d d' l l' : ℚ}

theorem constant (w : String → ℚ) : Weighs w constant 0 0 := ⟨.nil, .nil⟩

theorem ofText (w : String → ℚ) (text : String) : Weighs w (ofText text) 0 0 := ⟨.nil, .nil⟩

theorem polylog (w : String → ℚ) (v : String) {s t : Scalar} (hs : s.Denotes d)
    (ht : t.Denotes l) : Weighs w (polylog v s t) (w v * d) (w v * l) :=
  ⟨.powers w v hs, .powers w v ht⟩

/-- **The weights of a product.** -/
theorem mul (hg : Weighs w g d l) (hh : Weighs w h d' l') :
    Weighs w (g.mul h) (d + d') (l + l') :=
  ⟨hg.degrees.addPowers hh.degrees, hg.logs.addPowers hh.logs⟩

theorem scaled {factor : Scalar} {r : ℚ} (hfactor : factor.Denotes r) (hg : Weighs w g d l) :
    Weighs w (g.scaled factor) (r * d) (r * l) :=
  ⟨hg.degrees.map_mul hfactor, (hg.logs.map_mul hfactor).filter⟩

/-- Every class has weights, as every scalar denotes something. -/
theorem exists_weighs (w : String → ℚ) (g : Growth) : ∃ d l, Weighs w g d l := by
  obtain ⟨d, hd⟩ := Sums.exists_sums w g.degrees
  obtain ⟨l, hl⟩ := Sums.exists_sums w g.logs
  exact ⟨d, l, hd, hl⟩

/-- The totals are the weights where each variable counts one. -/
theorem degree (h : Weighs (fun _ => 1) g d l) : g.degree.Denotes d := by
  have htotal := h.degrees.total (Scalar.Denotes.exact 0)
  rwa [zero_add] at htotal

/-- With the weight one for each variable they are the total power of
logarithms. -/
theorem logCount (h : Weighs (fun _ => 1) g d l) : g.logCount.Denotes l := by
  have htotal := h.logs.total (Scalar.Denotes.exact 0)
  rwa [zero_add] at htotal

end Weighs

end Growth

/-! ## Atoms -/

/-- Whether the atom is a minimum or a maximum. -/
def Atom.isExtremum : Atom → Bool
  | .min _ _ => true
  | .max _ _ => true
  | _ => false

/-- How often the class of an atom counts in that of a power: as often as the
exponent says, but once for an extremum. -/
def Atom.share (a : Atom) (e : ℤ) : ℚ :=
  if a.isExtremum then 1 else e

namespace Growth

variable (w : String → ℚ) (vars : List String)

/-- The class of a power of a logarithm. -/
theorem exists_weighs_ofLog (g : Growth) :
    ∃ d l, ∀ e : ℤ, Weighs w (ofLog g e) (e * d) (e * l) := by
  have hconstant : ∃ d l, ∀ e : ℤ, Weighs w constant (e * d) (e * l) :=
    ⟨0, 0, fun e => by simpa using Weighs.constant w⟩
  simp only [ofLog]
  cases g.dominantVar? with
  | none => exact hconstant
  | some v =>
      simp only
      split
      · refine ⟨0, w v, fun e => ?_⟩
        have hlog := Weighs.polylog w v (.exact 0) (.exact (e : ℚ))
        rw [mul_zero, mul_comm (w v)] at hlog
        rw [mul_zero]
        exact hlog
      · exact hconstant

/-- **The class of a power of an atom**: its weights are those of the atom,
times the share. -/
theorem exists_weighs_ofAtom (a : Atom) :
    ∃ d l, ∀ e : ℤ, Weighs w (ofAtom vars e a) (a.share e * d) (a.share e * l) := by
  have hzero : ∀ {g : ℤ → Growth} {a : Atom}, (∀ e, Weighs w (g e) 0 0) →
      ∃ d l, ∀ e : ℤ, Weighs w (g e) (a.share e * d) (a.share e * l) := fun h =>
    ⟨0, 0, fun e => by simpa using h e⟩
  cases a with
  | var v =>
      simp only [ofAtom]
      split
      · refine ⟨w v, 0, fun e => ?_⟩
        have hpower := Weighs.polylog w v (.exact (e : ℚ)) (.exact 0)
        rw [mul_zero, mul_comm (w v)] at hpower
        rw [mul_zero]
        exact hpower
      · exact hzero fun _ => .constant w
  | log p => exact exists_weighs_ofLog w (ofPoly vars p)
  | exp base p =>
      refine hzero fun e => ?_
      rw [ofAtom, ofExp]
      split
      · exact ⟨.nil, .nil⟩
      · exact .constant w
  | power p s =>
      obtain ⟨d, l, hbase⟩ := Weighs.exists_weighs w (ofPoly vars p)
      obtain ⟨r, hs⟩ : ∃ r, s.Denotes r := by
        cases s with
        | exact r => exact ⟨r, .exact r⟩
        | overflow => exact ⟨0, Or.inr rfl⟩
      refine ⟨r * d, r * l, fun e => ?_⟩
      have hpower := hbase.scaled (hs.mul (.exact (e : ℚ)))
      rw [mul_comm r, mul_assoc, mul_assoc] at hpower
      rw [ofAtom]
      exact hpower
  -- the class of an extremum is that of one of its sides, whatever the exponent
  | min p q =>
      obtain ⟨d, l, hclass⟩ := Weighs.exists_weighs w (ofAtom vars 1 (.min p q))
      refine ⟨d, l, fun e => ?_⟩
      rw [Atom.share, Atom.isExtremum, if_pos rfl, one_mul, one_mul]
      exact hclass
  | max p q =>
      obtain ⟨d, l, hclass⟩ := Weighs.exists_weighs w (ofAtom vars 1 (.max p q))
      refine ⟨d, l, fun e => ?_⟩
      rw [Atom.share, Atom.isExtremum, if_pos rfl, one_mul, one_mul]
      exact hclass
  | unresolved t => exact hzero fun _ => .ofText w t
  | unknown t => exact hzero fun _ => .ofText w t

end Growth

/-! ## Monomials -/

/-- The weight of factors, given that of each atom. -/
def Atom.weigh (D : Atom → ℚ) (fs : List (Atom × ℤ)) : ℚ :=
  (fs.map fun f => f.1.share f.2 * D f.1).sum

namespace Atom

variable (D : Atom → ℚ)

/-- Without factors there is no weight. -/
@[simp] theorem weigh_nil : weigh D [] = 0 := rfl

/-- The first factor adds its share. -/
@[simp] theorem weigh_cons (f : Atom × ℤ) (fs : List (Atom × ℤ)) :
    weigh D (f :: fs) = f.1.share f.2 * D f.1 + weigh D fs := by
  rw [weigh, List.map_cons, List.sum_cons, weigh]

/-- Shares add up along a list. -/
@[simp] theorem weigh_append (fs gs : List (Atom × ℤ)) :
    weigh D (fs ++ gs) = weigh D fs + weigh D gs := by
  rw [weigh, List.map_append, List.sum_append, weigh, weigh]

end Atom

namespace Growth

variable (w : String → ℚ) (vars : List String)

/-- The class of factors is multiplied up one by one, and so its weights add
up. -/
theorem Weighs.ofFactors {w : String → ℚ} {vars : List String} {D L : Atom → ℚ}
    (hatom : ∀ a e, Weighs w (ofAtom vars e a) (a.share e * D a) (a.share e * L a))
    {acc : Growth} {d l : ℚ} (hacc : Weighs w acc d l) (fs : List (Atom × ℤ)) :
    Weighs w (ofFactors vars acc fs) (d + Atom.weigh D fs) (l + Atom.weigh L fs) := by
  induction fs generalizing acc d l with
  | nil =>
      rw [Atom.weigh_nil, Atom.weigh_nil, add_zero, add_zero]
      exact hacc
  | cons f fs ih =>
      rw [Atom.weigh_cons, Atom.weigh_cons, ← add_assoc, ← add_assoc]
      exact ih (hacc.mul (hatom f.1 f.2))

/-- **The class of a monomial**: its weights are those of its atoms, times their
shares. -/
theorem exists_weighs_ofMonomial :
    ∃ D L : Atom → ℚ, ∀ m : Monomial,
      Weighs w (ofMonomial vars m) (Atom.weigh D m.factors) (Atom.weigh L m.factors) := by
  choose D L hatom using exists_weighs_ofAtom w vars
  refine ⟨D, L, fun m => ?_⟩
  obtain ⟨fs⟩ := m
  have hfactors := (Weighs.constant w).ofFactors hatom fs
  rwa [zero_add, zero_add] at hfactors

end Growth

end CostAnalysis
