import CostAnalysis.Algebra.Assoc
import Mathlib.Data.List.Pairwise
import Mathlib.Tactic.Common

/-!
# What one write to an ordered association list does

Every operation on monomials and polynomials is a sequence of calls of
`Assoc.alter`.  The one fact about it that later proofs use is `alter_cut`: a
write cuts the list at one place, replaces what the key has there, and leaves
both sides alone.  Sums and products over the entries, membership and order are
read off from there, and `alter` is not unfolded again.

**Two levels.**  Without any law about the order a write still adds to a sum
over the entries and brings in no other key, which is all that values and
membership need.  Where the order is linear on the keys (`Assoc.LinearOn`), a
sorted list stays sorted, has one entry for a key, and is decided by what is
looked up in it (`Assoc.LinearOn.ext`).  The keys of a polynomial are monomials
and those of a monomial atoms, so each fact is used at both levels.
-/

namespace CostAnalysis.Assoc

variable {κ : Type u} {ν : Type v} [Ord κ]

/-- The entries of a key for an optional value: one or none. -/
def entry (k : κ) (value? : Option ν) : List (κ × ν) :=
  (value?.map (Prod.mk k)).toList

omit [Ord κ] in
/-- Without a value there is no entry. -/
@[simp] theorem entry_none (k : κ) : entry k (none : Option ν) = [] := rfl

omit [Ord κ] in
@[simp] theorem entry_some (k : κ) (v : ν) : entry k (some v) = [(k, v)] := rfl

/-- **One write.**  The list is cut after the entries that stand before the key.
What the key had at the cut, one entry or none, is replaced by what the write
makes of it. -/
theorem alter_cut (k : κ) (heq : ∀ k', compare k k' = .eq → k' = k) (entries : List (κ × ν)) :
    ∃ before old? after, entries = before ++ entry k old? ++ after ∧
      (∀ e ∈ before, compare k e.1 = .gt) ∧
      (old? = none → ∀ e ∈ after.head?, compare k e.1 = .lt) ∧
      ∀ f : Option ν → Option ν, alter k f entries = before ++ entry k (f old?) ++ after := by
  -- the cut is found by walking along the list until a key is not below `k` any
  -- more
  induction entries with
  | nil =>
      refine ⟨[], none, [], rfl, by simp, by simp, fun f => ?_⟩
      cases hf : f none <;> simp [alter, hf]
  | cons head rest ih =>
      obtain ⟨k', v'⟩ := head
      cases hcmp : compare k k' with
      | lt =>
          refine ⟨[], none, (k', v') :: rest, rfl, by simp, by simpa using hcmp, fun f => ?_⟩
          cases hf : f none <;> simp [alter, hcmp, hf]
      | eq =>
          obtain rfl := heq k' hcmp
          refine ⟨[], some v', rest, rfl, by simp, by simp, fun f => ?_⟩
          cases hf : f (some v') <;> simp [alter, hcmp, hf]
      | gt =>
          obtain ⟨before, old?, after, hrest, hbefore, hafter, halter⟩ := ih
          refine ⟨(k', v') :: before, old?, after, by rw [hrest]; rfl, ?_, hafter, fun f => ?_⟩
          · exact List.forall_mem_cons.mpr ⟨hcmp, hbefore⟩
          · simp [alter, hcmp, halter f]

/-- After a write there are the entries from before and at most one other, which
the write made. -/
theorem mem_alter {k : κ} (heq : ∀ k', compare k k' = .eq → k' = k) {f : Option ν → Option ν}
    {entries : List (κ × ν)} {e : κ × ν} (he : e ∈ alter k f entries) :
    e ∈ entries ∨ e.1 = k ∧ ∃ old?, f old? = some e.2 := by
  obtain ⟨before, old?, after, hentries, -, -, halter⟩ := alter_cut k heq entries
  rw [halter, List.append_assoc, List.mem_append, List.mem_append] at he
  rcases he with he | he | he
  · exact Or.inl (by simp [hentries, he])
  · cases hf : f old? with
    | none =>
        rw [hf] at he
        cases he
    | some v =>
        rw [hf] at he
        obtain rfl := List.mem_singleton.mp he
        exact Or.inr ⟨rfl, old?, hf⟩
  · exact Or.inl (by simp [hentries, he])

/-- A write leaves the entries of other keys alone. -/
theorem mem_of_mem_alter {k : κ} (heq : ∀ k', compare k k' = .eq → k' = k)
    {f : Option ν → Option ν} {entries : List (κ × ν)} {e : κ × ν} (he : e ∈ alter k f entries)
    (hne : e.1 ≠ k) : e ∈ entries := by
  rcases mem_alter heq he with hmem | ⟨hkey, -⟩
  · exact hmem
  · exact absurd hkey hne

/-- What is left when a key is removed was there before. -/
theorem mem_of_mem_erase {k : κ} (heq : ∀ k', compare k k' = .eq → k' = k)
    {entries : List (κ × ν)} {e : κ × ν} (he : e ∈ erase k entries) : e ∈ entries := by
  rcases mem_alter heq he with hmem | ⟨-, old?, hnone⟩
  · exact hmem
  · cases hnone

/-- A look-up goes on behind a list in which it finds nothing. -/
theorem find?_append (k : κ) (before after : List (κ × ν)) :
    find? k (before ++ after) = (find? k before).or (find? k after) := by
  induction before with
  | nil => rfl
  | cons head rest ih =>
      simp only [List.cons_append, find?]
      split
      · rfl
      · exact ih

/-- A look-up among entries of other keys finds nothing. -/
theorem find?_eq_none (k : κ) {entries : List (κ × ν)}
    (hentries : ∀ e ∈ entries, compare k e.1 ≠ .eq) : find? k entries = none := by
  induction entries with
  | nil => rfl
  | cons head rest ih =>
      obtain ⟨hne, hrest⟩ := List.forall_mem_cons.mp hentries
      rw [find?, if_neg (by simpa using hne), ih hrest]

/-- A look-up passes over entries of other keys. -/
theorem find?_append_of_ne (k : κ) {before : List (κ × ν)} (after : List (κ × ν))
    (hbefore : ∀ e ∈ before, compare k e.1 ≠ .eq) :
    find? k (before ++ after) = find? k after := by
  rw [find?_append, find?_eq_none k hbefore, Option.none_or]

/-- A look-up in a list with other values for the same keys. -/
theorem find?_map {ν' : Type w} (k : κ) (g : ν → ν') (entries : List (κ × ν)) :
    find? k (entries.map fun e => (e.1, g e.2)) = (find? k entries).map g := by
  induction entries with
  | nil => rfl
  | cons head rest ih =>
      simp only [List.map_cons, find?]
      split
      · rfl
      · exact ih

/-- A look-up stops at the first entry of its key. -/
theorem find?_cons_of_eq {k k' : κ} (v : ν) (rest : List (κ × ν)) (h : compare k k' = .eq) :
    find? k ((k', v) :: rest) = some v := by
  simp [find?, h]

/-! ## Sorted lists

The order of keys is a comparison that need not be lawful for all keys.  On a
set of keys on which it is (`LinearOn`), a sorted list is decided by its
entries, and writes keep it sorted. -/

/-- The keys increase along the list. -/
def Sorted (entries : List (κ × ν)) : Prop :=
  entries.Pairwise fun e f => compare e.1 f.1 = .lt

/-- Among the keys with the property the order is a strict linear one.  Nothing
is asked of other keys: the order of all of them falls back to rounded quotients
and need not be transitive. -/
structure LinearOn (K : κ → Prop) : Prop where
  eq_of_eq : ∀ {k k' : κ}, compare k k' = .eq → k' = k
  lt_of_gt : ∀ {k k' : κ}, K k → K k' → compare k k' = .gt → compare k' k = .lt
  lt_trans : ∀ {k k' k'' : κ}, K k → K k' → K k'' → compare k k' = .lt → compare k' k'' = .lt →
    compare k k'' = .lt
  irrefl : ∀ {k : κ}, K k → compare k k ≠ .lt

/-- An order is linear on keys that are compared by something with a linear
order. -/
theorem LinearOn.of_key {K : κ → Prop} {α : Type w} {key : κ → α} {cmp : α → α → Ordering}
    [Std.TransCmp cmp] (heq : ∀ k k' : κ, compare k k' = .eq → k' = k)
    (hcmp : ∀ k k', K k → K k' → compare k k' = cmp (key k) (key k')) : LinearOn K where
  eq_of_eq h := heq _ _ h
  lt_of_gt {k k'} hk hk' h := by
    rw [hcmp k k' hk hk'] at h
    rw [hcmp k' k hk' hk]
    exact Std.OrientedCmp.lt_of_gt h
  lt_trans {k k' k''} hk hk' hk'' h h' := by
    rw [hcmp _ _ hk hk'] at h
    rw [hcmp _ _ hk' hk''] at h'
    rw [hcmp _ _ hk hk'']
    exact Std.TransCmp.lt_trans h h'
  irrefl {k} hk h := by
    have hself : cmp (key k) (key k) = .eq := Std.ReflCmp.compare_self
    rw [hcmp k k hk hk, hself] at h
    cases h

namespace LinearOn

variable {K : κ → Prop} (h : LinearOn K) {entries entries' : List (κ × ν)}
include h

/-- The entries of a sorted list decide it. -/
theorem eq_of_perm (hkeys : ∀ e ∈ entries, K e.1) (hsorted : Sorted entries)
    (hsorted' : Sorted entries') (hperm : entries.Perm entries') : entries = entries' := by
  refine hperm.eq_of_pairwise (fun e e' he he' hlt hgt => ?_) hsorted hsorted'
  have hk := hkeys e he
  have hk' := hkeys e' (hperm.mem_iff.mpr he')
  exact absurd (h.lt_trans hk hk' hk hlt hgt) (h.irrefl hk)

/-- No key stands twice in a sorted list. -/
theorem ne_of_sorted (hkeys : ∀ e ∈ entries, K e.1) (hsorted : Sorted entries) :
    entries.Pairwise fun e f => e.1 ≠ f.1 := by
  refine hsorted.imp_of_mem fun {e f} he _ hlt heq => ?_
  rw [← heq] at hlt
  exact h.irrefl (hkeys e he) hlt

/-- What is linear on a class is linear on a smaller one. -/
theorem mono {K' : κ → Prop} (hK : ∀ k, K' k → K k) : LinearOn K' where
  eq_of_eq := h.eq_of_eq
  lt_of_gt hk hk' := h.lt_of_gt (hK _ hk) (hK _ hk')
  lt_trans hk hk' hk'' := h.lt_trans (hK _ hk) (hK _ hk') (hK _ hk'')
  irrefl hk := h.irrefl (hK _ hk)

/-- A key compares as equal to itself. -/
theorem compare_self {k : κ} (hk : K k) : compare k k = .eq := by
  cases hcmp : compare k k with
  | lt => exact absurd hcmp (h.irrefl hk)
  | eq => rfl
  | gt => exact absurd (h.lt_of_gt hk hk hcmp) (h.irrefl hk)

/-- **The place of a key** in a sorted list: the entries below it, its own entry
if it has one, and the entries above it.  A write changes its own entry
alone. -/
theorem cut {k : κ} (hkeys : ∀ e ∈ entries, K e.1) (hsorted : Sorted entries) (hk : K k) :
    ∃ before old? after, entries = before ++ entry k old? ++ after ∧
      (∀ e ∈ before, compare e.1 k = .lt) ∧ (∀ e ∈ after, compare k e.1 = .lt) ∧
      ∀ f, alter k f entries = before ++ entry k (f old?) ++ after := by
  obtain ⟨before, old?, after, hentries, hbefore, hafter, halter⟩ :=
    alter_cut k (fun k' => h.eq_of_eq) entries
  rw [hentries] at hkeys hsorted
  refine ⟨before, old?, after, hentries, fun e he => ?_, fun e he => ?_, halter⟩
  · exact h.lt_of_gt hk (hkeys e (by simp [he])) (hbefore e he)
  · cases old? with
    | some v =>
        rw [List.append_assoc, entry_some, Sorted, List.pairwise_append] at hsorted
        exact (List.pairwise_cons.mp hsorted.2.1).1 e he
    | none =>
        -- only the first entry after the cut was compared; the others are above
        -- it
        cases after with
        | nil => cases he
        | cons d ds =>
            have hd : compare k d.1 = .lt := hafter rfl d rfl
            rcases List.mem_cons.mp he with rfl | he
            · exact hd
            · rw [Sorted, List.pairwise_append] at hsorted
              exact h.lt_trans hk (hkeys d (by simp)) (hkeys e (by simp [he])) hd
                ((List.pairwise_cons.mp hsorted.2.1).1 e he)

/-- A write keeps a list sorted. -/
theorem sorted_alter {k : κ} (hkeys : ∀ e ∈ entries, K e.1) (hsorted : Sorted entries) (hk : K k)
    (f : Option ν → Option ν) : Sorted (alter k f entries) := by
  obtain ⟨before, old?, after, rfl, hbefore, hafter, halter⟩ := h.cut hkeys hsorted hk
  rw [List.append_assoc, Sorted, List.pairwise_append, List.pairwise_append] at hsorted
  obtain ⟨hsortedBefore, ⟨-, hsortedAfter, -⟩, hacross⟩ := hsorted
  rw [halter, List.append_assoc, Sorted, List.pairwise_append, List.pairwise_append]
  -- what is written in between has the key of the place, if anything is written
  have hentry : ∀ e ∈ entry k (f old?), e.1 = k := by
    intro e he
    cases hf : f old? with
    | none =>
        rw [hf] at he
        cases he
    | some v =>
        rw [hf] at he
        rw [List.mem_singleton.mp he]
  refine ⟨hsortedBefore, ⟨?_, hsortedAfter, fun e he d hd => ?_⟩, fun e he d hd => ?_⟩
  · cases f old? <;> simp
  · rw [hentry e he]
    exact hafter d hd
  · rcases List.mem_append.mp hd with hd | hd
    · rw [hentry d hd]
      exact hbefore e he
    · exact hacross e he d (List.mem_append_right _ hd)

/-- A write brings in its own key only. -/
theorem keys_alter {k : κ} (hkeys : ∀ e ∈ entries, K e.1) (hk : K k) (f : Option ν → Option ν) :
    ∀ e ∈ alter k f entries, K e.1 := by
  intro e he
  rcases mem_alter (fun k' => h.eq_of_eq) he with he | ⟨heq, -⟩
  · exact hkeys e he
  · rw [heq]
    exact hk

/-- A look-up between entries below the key and entries above it. -/
theorem find?_cut {k : κ} {before after : List (κ × ν)} (hk : K k)
    (hbefore : ∀ e ∈ before, compare e.1 k = .lt) (hafter : ∀ e ∈ after, compare k e.1 = .lt)
    (value? : Option ν) : find? k (before ++ entry k value? ++ after) = value? := by
  have hbelow : ∀ e ∈ before, compare k e.1 ≠ .eq := by
    intro e he heq
    have hlt := hbefore e he
    rw [h.eq_of_eq heq] at hlt
    exact h.irrefl hk hlt
  rw [List.append_assoc, find?_append_of_ne k _ hbelow]
  cases value? with
  | some v => exact find?_cons_of_eq v after (h.compare_self hk)
  | none =>
      refine find?_eq_none k fun e he => ?_
      rw [hafter e he]
      exact nofun

/-- A look-up after a write for the same key. -/
theorem find?_alter_self {k : κ} (hkeys : ∀ e ∈ entries, K e.1) (hsorted : Sorted entries)
    (hk : K k) (f : Option ν → Option ν) : find? k (alter k f entries) = f (find? k entries) := by
  obtain ⟨before, old?, after, rfl, hbefore, hafter, halter⟩ := h.cut hkeys hsorted hk
  rw [halter, h.find?_cut hk hbefore hafter, h.find?_cut hk hbefore hafter]

/-- A look-up after a write for another key. -/
theorem find?_alter_of_ne {k k' : κ} (hne : k ≠ k') (f : Option ν → Option ν) :
    find? k' (alter k f entries) = find? k' entries := by
  obtain ⟨before, old?, after, rfl, -, -, halter⟩ :=
    alter_cut k (fun k' => h.eq_of_eq) entries
  have hentry : ∀ value? : Option ν, ∀ e ∈ entry k value?, compare k' e.1 ≠ .eq := by
    intro value? e he heq
    cases value? with
    | none => cases he
    | some v =>
        rw [List.mem_singleton.mp he] at heq
        exact hne (h.eq_of_eq heq)
  have hpass : ∀ value? : Option ν, find? k' (before ++ entry k value? ++ after) =
      (find? k' before).or (find? k' after) := fun value? => by
    rw [List.append_assoc, find?_append, find?_append_of_ne k' after (hentry value?)]
  rw [halter, hpass, hpass]

/-- What is looked up in a sorted list is what stands in it. -/
theorem find?_eq_some_iff {k : κ} {v : ν} (hkeys : ∀ e ∈ entries, K e.1) (hsorted : Sorted entries)
    (hk : K k) : find? k entries = some v ↔ (k, v) ∈ entries := by
  obtain ⟨before, old?, after, rfl, hbefore, hafter, -⟩ := h.cut hkeys hsorted hk
  rw [h.find?_cut hk hbefore hafter, List.append_assoc, List.mem_append, List.mem_append]
  have hnotBefore : (k, v) ∉ before := fun hmem => h.irrefl hk (hbefore _ hmem)
  have hnotAfter : (k, v) ∉ after := fun hmem => h.irrefl hk (hafter _ hmem)
  cases old? with
  | none => simp [hnotBefore, hnotAfter]
  | some w => simp [hnotBefore, hnotAfter, eq_comm]

/-- **The values of its keys decide a sorted list.** -/
theorem ext (hkeys : ∀ e ∈ entries, K e.1) (hkeys' : ∀ e ∈ entries', K e.1)
    (hsorted : Sorted entries) (hsorted' : Sorted entries')
    (hfind : ∀ k, K k → find? k entries = find? k entries') : entries = entries' := by
  have hmem : ∀ e, e ∈ entries ↔ e ∈ entries' := by
    rintro ⟨k, v⟩
    by_cases hk : K k
    · rw [← h.find?_eq_some_iff hkeys hsorted hk, ← h.find?_eq_some_iff hkeys' hsorted' hk,
        hfind k hk]
    · exact iff_of_false (fun he => hk (hkeys _ he)) fun he => hk (hkeys' _ he)
  have hnodup : entries.Nodup := (h.ne_of_sorted hkeys hsorted).imp fun hne heq => hne (by rw [heq])
  have hnodup' : entries'.Nodup :=
    (h.ne_of_sorted hkeys' hsorted').imp fun hne heq => hne (by rw [heq])
  exact h.eq_of_perm hkeys hsorted hsorted' ((List.perm_ext_iff_of_nodup hnodup hnodup').mpr hmem)

/-- A write for a new key adds its entry to the others. -/
theorem perm_alter_new {k : κ} {v : ν} {f : Option ν → Option ν} (hnew : ∀ e ∈ entries, e.1 ≠ k)
    (hf : f none = some v) : (alter k f entries).Perm ((k, v) :: entries) := by
  obtain ⟨before, old?, after, hentries, -, -, halter⟩ :=
    alter_cut k (fun k' => h.eq_of_eq) entries
  cases old? with
  | some w => exact absurd rfl (hnew (k, w) (by simp [hentries]))
  | none =>
      simp only [entry_none, List.append_nil] at hentries
      rw [halter, hf, entry_some, List.append_assoc, List.singleton_append, hentries]
      exact List.perm_middle

/-- **Writing new keys one after the other**, in any order, sorts them in.  What
is written to need not be a list itself but may be anything that shows one. -/
theorem foldl_new {σ : Type w} (view : σ → List (κ × ν)) (step : σ → κ × ν → σ)
    {write : κ × ν → Option ν → Option ν}
    (hstep : ∀ s e, view (step s e) = alter e.1 (write e) (view s)) {l : List (κ × ν)} {s : σ}
    (hwrite : ∀ e ∈ l, write e none = some e.2) (hl : ∀ e ∈ l, K e.1)
    (hdistinct : l.Pairwise fun e d => e.1 ≠ d.1) (hkeys : ∀ e ∈ view s, K e.1)
    (hsorted : Sorted (view s)) (hnew : ∀ e ∈ l, ∀ d ∈ view s, d.1 ≠ e.1) :
    Sorted (view (l.foldl step s)) ∧ (view (l.foldl step s)).Perm (l ++ view s) := by
  induction l generalizing s with
  | nil => exact ⟨hsorted, .refl _⟩
  | cons e l ih =>
      obtain ⟨hwriteFirst, hwrite⟩ := List.forall_mem_cons.mp hwrite
      obtain ⟨hk, hl⟩ := List.forall_mem_cons.mp hl
      obtain ⟨hfirst, hdistinct⟩ := List.pairwise_cons.mp hdistinct
      obtain ⟨hnewFirst, hnew⟩ := List.forall_mem_cons.mp hnew
      have hnext := h.perm_alter_new hnewFirst hwriteFirst
      have hsortedNext := h.sorted_alter hkeys hsorted hk (write e)
      rw [← hstep] at hsortedNext hnext
      -- after the first write the list has one key more, and the others are
      -- still new
      have hmem : ∀ d ∈ view (step s e), d = (e.1, e.2) ∨ d ∈ view s := fun d hd =>
        List.mem_cons.mp (hnext.mem_iff.mp hd)
      obtain ⟨hsortedAll, hall⟩ := ih hwrite hl hdistinct
        (fun d hd => (hmem d hd).elim (fun heq => heq ▸ hk) (hkeys d)) hsortedNext
        fun d hd d' hd' => (hmem d' hd').elim (fun heq => heq ▸ hfirst d hd) (hnew d hd d')
      refine ⟨hsortedAll, hall.trans ?_⟩
      exact (List.Perm.append_left l hnext).trans List.perm_middle

/-- If what is there and what is written make up a sorted list, then that is
what comes out. -/
theorem foldl_new_eq {σ : Type w} (view : σ → List (κ × ν)) (step : σ → κ × ν → σ)
    {write : κ × ν → Option ν → Option ν}
    (hstep : ∀ s e, view (step s e) = alter e.1 (write e) (view s)) {l : List (κ × ν)} {s : σ}
    (hwrite : ∀ e ∈ l, write e none = some e.2) (hkeys : ∀ e ∈ entries, K e.1)
    (hsorted : Sorted entries) (hstart : Sorted (view s)) (hperm : (l ++ view s).Perm entries) :
    view (l.foldl step s) = entries := by
  have hall : ∀ e ∈ l ++ view s, K e.1 := fun e he => hkeys e (hperm.mem_iff.mp he)
  have hdistinct : (l ++ view s).Pairwise fun e f => e.1 ≠ f.1 :=
    (hperm.pairwise_iff Ne.symm).mpr (h.ne_of_sorted hkeys hsorted)
  obtain ⟨hl, -, hacross⟩ := List.pairwise_append.mp hdistinct
  obtain ⟨hresult, hresultPerm⟩ := h.foldl_new view step hstep hwrite
    (fun e he => hall e (List.mem_append_left _ he)) hl
    (fun e he => hall e (List.mem_append_right _ he)) hstart
    fun e he d hd => (hacross e he d hd).symm
  have hkeysResult : ∀ e ∈ view (l.foldl step s), K e.1 := fun e he =>
    hall e (hresultPerm.mem_iff.mp he)
  exact h.eq_of_perm hkeysResult hresult hsorted (hresultPerm.trans hperm)

end LinearOn

/-- The natural numbers are in a linear order. -/
theorem linearOn_nat : LinearOn fun _ : Nat => True where
  eq_of_eq h := (Nat.compare_eq_eq.mp h).symm
  lt_of_gt _ _ h := Nat.compare_eq_lt.mpr (Nat.compare_eq_gt.mp h)
  lt_trans _ _ _ h h' :=
    Nat.compare_eq_lt.mpr (Nat.lt_trans (Nat.compare_eq_lt.mp h) (Nat.compare_eq_lt.mp h'))
  irrefl _ h := Nat.lt_irrefl _ (Nat.compare_eq_lt.mp h)

/-! ## Sets -/

variable {e : κ}

/-- Inserting into a set adds the element. -/
theorem mem_insertElement {k : κ} (heq : ∀ k', compare k k' = .eq → k' = k) {set : List κ} :
    e ∈ insertElement k set ↔ e = k ∨ e ∈ set := by
  induction set with
  | nil => simp [insertElement]
  | cons k' rest ih =>
      rw [insertElement]
      split
      · simp
      · next h => simp [heq k' h]
      · rw [List.mem_cons, ih, List.mem_cons, or_left_comm]

/-- The set of a list has the elements of the list. -/
theorem mem_sortedSet (heq : ∀ k k' : κ, compare k k' = .eq → k' = k) {elements : List κ} :
    e ∈ sortedSet elements ↔ e ∈ elements := by
  have hfold : ∀ (elements set : List κ),
      e ∈ elements.foldl (fun set k => insertElement k set) set ↔ e ∈ set ∨ e ∈ elements := by
    intro elements
    induction elements with
    | nil => simp
    | cons k rest ih =>
        intro set
        rw [List.foldl_cons, ih, mem_insertElement (heq k), List.mem_cons, or_assoc, or_left_comm]
  rw [sortedSet, hfold]
  simp

end CostAnalysis.Assoc
