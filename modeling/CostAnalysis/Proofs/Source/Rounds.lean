import CostAnalysis.Proofs.Source.Operations

/-!
# Readers that move on, and loops that end

A reader `Parse.Advances` if a run of it never goes back and never goes beyond
the last token.  A reader that fails leaves no cursor, but its error names the
place of a token, so this token must not be behind the one where the reader
began.

A loop is bounded by the number of tokens that are left, and so is the depth of
what refers back to itself.  Such a bound could hide that a loop goes on for
ever.  So a loop is looked at as a round that is given what comes after it,
`Parse.rounds` is a number of rounds with anything at all behind them, and the
loop `Parse.Ends` if with more rounds than tokens that are left it does not
matter what is behind them.

**Both at once.**  `Parse.Alike` compares two readers where fewer than a given
number of tokens follow: they do the same, and they move on.  A reader that
advances is alike to itself.  What stands behind a round comes after a token was
consumed, so the rounds of a loop are alike by induction on their number, from
one lemma for a round (`Parse.alike_rounds`).  With no rounds at all there is
nothing to show, since no place has fewer than no tokens behind it; this is
where what stands behind the last round drops out.
-/

namespace CostAnalysis.Parse

variable {α β σ : Type}

/-- What a run from `c` comes to.  If it succeeds, the cursor is further by at
least `least` tokens, and not beyond the last one; if it fails, the error names
the place of a token that is not behind `c`. -/
def Lands (least : ℕ) (c : Cursor) : Except SyntaxError (α × Cursor) → Prop
  | .ok (_, c') => ∃ n, least ≤ n ∧ n ≤ c.rest.length ∧ c' = step^[n] c
  | .error e => ∃ n ≤ c.rest.length, e.position = (step^[n] c).current.position

/-- From every place the reader moves on, by at least `least` tokens if it
succeeds. -/
def Advances (least : ℕ) (m : Parse α) : Prop :=
  ∀ c, c.Ended → Lands least c (m.run c)

/-- A number of rounds, each of which is given what comes after it, with `stop`
behind them. -/
def rounds (round : (σ → Parse α) → σ → Parse α) (stop : σ → Parse α) : ℕ → σ → Parse α
  | 0 => stop
  | n + 1 => round (rounds round stop n)

/-- The loop is one of these rounds after the other. -/
def Unrolls (loop : ℕ → σ → Parse α) (round : (σ → Parse α) → σ → Parse α) : Prop :=
  ∀ n, loop (n + 1) = round (loop n)

/-- The loop of the round ends by itself: as many rounds as there are tokens are
enough for it, so that neither their number nor what is behind them matters. -/
def Ends (round : (σ → Parse α) → σ → Parse α) : Prop :=
  ∀ c, c.Ended → ∀ n n', c.rest.length < n → c.rest.length < n' → ∀ stop stop' s,
    (rounds round stop n s).run c = (rounds round stop' n' s).run c

/-- Where the current token satisfies `p` and fewer than `size` tokens follow
it, the two readers do the same, and they move on. -/
def Alike (p : Token → Prop) (size least : ℕ) (m m' : Parse α) : Prop :=
  ∀ c, c.Ended → p c.current → c.rest.length < size →
    m.run c = m'.run c ∧ Lands least c (m.run c)

/-! ## Places -/

/-- To come far includes to come less far. -/
theorem Lands.mono {least least' : ℕ} {c : Cursor} {result : Except SyntaxError (α × Cursor)}
    (h : Lands least c result) (hle : least' ≤ least) : Lands least' c result := by
  cases result with
  | ok result =>
      obtain ⟨n, hn, hrest, hmove⟩ := h
      exact ⟨n, hle.trans hn, hrest, hmove⟩
  | error e => exact h

/-- What is reached from a place ahead is ahead. -/
theorem Lands.after {n least least' : ℕ} {c : Cursor} {result : Except SyntaxError (α × Cursor)}
    (h : Lands least (step^[n] c) result) (hn : n ≤ c.rest.length) (hle : least' ≤ n + least) :
    Lands least' c result := by
  have hmove : ∀ k, step^[k] (step^[n] c) = step^[k + n] c := fun k =>
    (Function.iterate_add_apply step k n c).symm
  have hbound : ∀ k, k ≤ (step^[n] c).rest.length → k + n ≤ c.rest.length := by
    intro k hk
    rw [rest_iterate, List.length_drop] at hk
    omega
  cases result with
  | ok result =>
      obtain ⟨k, hk, hrest, hlast⟩ := h
      exact ⟨k + n, by omega, hbound k hrest, hlast.trans (hmove k)⟩
  | error e =>
      obtain ⟨k, hrest, hplace⟩ := h
      exact ⟨k + n, hbound k hrest, by rw [hplace, hmove]⟩

/-! ## Rules

The rules follow the way in which readers are put together: a value, one reader
after another, a decision, a look at the current token, a failure.  A reader is
shown to be alike to another one by applying them in the order of its
definition. -/

variable {p : Token → Prop} {size size' least least' : ℕ} {m m' : Parse α} {f f' : α → Parse β}

/-- A reader that is alike to itself, whatever number of tokens follows, moves
on: the number that follows a given cursor is one of them. -/
theorem advances_of_alike (h : ∀ size, Alike (fun _ => True) size least m m) :
    Advances least m :=
  fun c hended => (h (c.rest.length + 1) c hended trivial (Nat.lt_succ_self _)).2

theorem Advances.alike (h : Advances least m) : Alike p size least m m :=
  fun c hended _ _ => ⟨rfl, h c hended⟩

namespace Alike

/-- Being alike with more tokens ahead, and with more of them taken, is the
stronger statement. -/
theorem mono (h : Alike p size least m m') (hsize : size' ≤ size) (hleast : least' ≤ least) :
    Alike p size' least' m m' := by
  intro c hended hp hlt
  obtain ⟨hrun, hlands⟩ := h c hended hp (hlt.trans_le hsize)
  exact ⟨hrun, hlands.mono hleast⟩

/-- The same with fewer tokens ahead only.  This is how a lemma about a callee
is used in a place that is nearer to the end. -/
theorem of_le (h : Alike p size least m m') (hsize : size' ≤ size) : Alike p size' least m m' :=
  h.mono hsize (Nat.le_refl least)

/-- A statement about every place is one about the places with a certain
token. -/
theorem anywhere (h : Alike (fun _ => True) size least m m') : Alike p size least m m' :=
  fun c hended _ hlt => h c hended trivial hlt

/-- Nothing has fewer tokens than none behind it. -/
theorem zero : Alike p 0 least m m' :=
  fun _ _ _ hlt => absurd hlt (Nat.not_lt_zero _)

/-- To return a value takes no token, so that nothing may be demanded. -/
theorem pure {a : α} (h : least = 0) : Alike p size least (pure a) (pure a) :=
  fun _ _ _ _ => ⟨rfl, 0, h.le, Nat.zero_le _, rfl⟩

/-- What was consumed first is no longer left. -/
theorem bind (h : Alike p size least m m')
    (hf : ∀ a, Alike (fun _ => True) (size - least) (least' - least) (f a) (f' a)) :
    Alike p size least' (m >>= f) (m' >>= f') := by
  intro c hended hp hlt
  obtain ⟨hrun, hlands⟩ := h c hended hp hlt
  rw [StateT.run_bind, StateT.run_bind, ← hrun]
  cases hfirst : m.run c with
  | error e =>
      rw [hfirst] at hlands
      exact ⟨rfl, hlands⟩
  | ok result =>
      obtain ⟨a, c'⟩ := result
      rw [hfirst] at hlands
      obtain ⟨n, hn, hrest, rfl⟩ := hlands
      have hleft : (step^[n] c).rest.length < size - least := by
        rw [rest_iterate, List.length_drop]
        omega
      have hsum : least' ≤ n + (least' - least) := by omega
      obtain ⟨hrun', hlands'⟩ := hf a (step^[n] c) (hended.iterate n) trivial hleft
      exact ⟨hrun', hlands'.after hrest hsum⟩

/-- A value is changed after the fact, which moves nothing. -/
theorem map {g : α → β} (h : Alike p size least m m') :
    Alike p size least (g <$> m) (g <$> m') := by
  rw [map_eq_pure_bind, map_eq_pure_bind]
  exact .bind h fun a => .pure (by omega)

/-- A decision is taken alike if both of its ways are; each of them may use the
condition. -/
theorem ite {b : Prop} [Decidable b] {k k' : Parse α} (h : b → Alike p size least m m')
    (h' : ¬b → Alike p size least k k') :
    Alike p size least (if b then m else k) (if b then m' else k') := by
  split
  · next hb => exact h hb
  · next hb => exact h' hb

/-- What comes after a reader that may be left out. -/
theorem ite_bind {b : Prop} [Decidable b] {g g' : Parse β} (h : Alike p size 0 m m')
    (hg : Alike (fun _ => True) size least g g') :
    Alike p size least (if b then m >>= fun _ => g else g)
      (if b then m' >>= fun _ => g' else g') := by
  refine .ite (fun _ => ?_) fun _ => hg.anywhere
  exact .bind h fun _ => hg

/-- Looking at the current token consumes nothing. -/
theorem peek_bind {f f' : Token → Parse β}
    (h : ∀ t, p t → Alike (· = t) size least (f t) (f' t)) :
    Alike p size least (peek >>= f) (peek >>= f') :=
  fun c hended hp hlt => h c.current hp c hended rfl hlt

/-- Looking at the kind of the current token consumes nothing, and what comes
after may rely on it.
-/
theorem kind_bind {f f' : TokenKind → Parse β}
    (h : ∀ k, Alike (fun t => t.kind = k ∧ p t) size least (f k) (f' k)) :
    Alike p size least (kind >>= f) (kind >>= f') :=
  fun c hended hp hlt => h c.current.kind c hended ⟨rfl, hp⟩ hlt

theorem peekNext_bind {f f' : Token → Parse β}
    (h : ∀ t, Alike p size least (f t) (f' t)) :
    Alike p size least (peekNext >>= f) (peekNext >>= f') :=
  fun c hended hp hlt => h (c.rest.headD c.current) c hended hp hlt

/-- A span is computed from the lines that were passed, without a move. -/
theorem spanFrom_bind {line : ℕ} {f f' : LineSpan → Parse β}
    (h : ∀ l, Alike p size least (f l) (f' l)) :
    Alike p size least (spanFrom line >>= f) (spanFrom line >>= f') :=
  fun c hended hp hlt => h (.of line c.previousLine) c hended hp hlt

/-- Whether an action line begins here is seen without a move, too. -/
theorem isActionLine_bind {f f' : Bool → Parse β} (h : ∀ b, Alike p size least (f b) (f' b)) :
    Alike p size least (isActionLine >>= f) (isActionLine >>= f') :=
  fun c hended hp hlt => h _ c hended hp hlt

/-- The number of tokens that are left is more than the number of those that
follow. -/
theorem remaining_bind {f f' : ℕ → Parse β}
    (h : ∀ n ≤ size, Alike p n least (f n) (f' n)) :
    Alike p size least (remaining >>= f) (remaining >>= f') :=
  fun c hended hp hlt => h (c.rest.length + 1) hlt c hended hp (Nat.lt_succ_self _)

/-- A failure names the place of the current token, which is not behind the
start. -/
theorem fail (cause : Token → SyntaxError.Cause) :
    Alike p size least (Parse.fail (α := α) cause) (Parse.fail cause) :=
  fun _ _ _ _ => ⟨rfl, 0, Nat.zero_le _, rfl⟩

theorem unexpected (what : String) :
    Alike p size least (Parse.unexpected (α := α) what) (Parse.unexpected what) :=
  fail _

end Alike

/-! ## Single tokens -/

/-- A token that is not the mark of the end is consumed. -/
theorem alike_advance (hp : ∀ t, p t → t.kind ≠ .endOfInput) :
    Alike p size 1 advance advance := by
  intro c hended ht hlt
  obtain ⟨current, rest, line⟩ := c
  cases rest with
  | nil => exact absurd (hended current rfl) (hp current ht)
  | cons t ts => exact ⟨rfl, 1, Nat.le_refl _, Nat.succ_pos _, rfl⟩

/-- The mark of the end stays the current token. -/
theorem advances_advance : Advances 0 advance := by
  intro c hended
  obtain ⟨current, rest, line⟩ := c
  cases rest with
  | nil => exact ⟨0, Nat.le_refl _, Nat.zero_le _, rfl⟩
  | cons t ts => exact ⟨1, Nat.zero_le _, Nat.succ_pos _, rfl⟩

/-- **After a consumed token** one token less follows, and one less is still
demanded.  All lemmas about readers that refer back to themselves get their
smaller number here. -/
theorem Alike.advance_bind {f f' : Token → Parse β} (hp : ∀ t, p t → t.kind ≠ .endOfInput)
    (h : ∀ t, Alike (fun _ => True) (size - 1) (least - 1) (f t) (f' t)) :
    Alike p size least (advance >>= f) (advance >>= f') :=
  .bind (alike_advance hp) h

/-- A token may be accepted or not, so nothing is taken for sure. -/
theorem alike_accept (k : TokenKind) : Alike p size 0 (accept k) (accept k) := by
  rw [accept]
  refine .kind_bind fun k' => .ite (fun _ => ?_) fun _ => .pure rfl
  exact .bind advances_advance.alike fun _ => .pure rfl

/-- How a run goes on after a token that may be accepted: one token further, or
where it was. -/
theorem run_accept_bind (k : TokenKind) (f : Bool → Parse β) (c : Cursor) :
    (accept k >>= f).run c =
      if c.current.kind = k then (f true).run (step c) else (f false).run c := by
  rw [accept]
  show ((if c.current.kind = k then _ else _ : Parse Bool) >>= f).run c = _
  split
  · rfl
  · rfl

/-- A loop goes on only behind a token that it consumed. -/
theorem Alike.accept_ite {k : TokenKind} {g g' : Parse α} (hk : k ≠ .endOfInput)
    (h : Alike (fun _ => True) (size - 1) (least - 1) m m') (h' : Alike p size least g g') :
    Alike p size least (accept k >>= fun taken => if taken = true then m else g)
      (accept k >>= fun taken => if taken = true then m' else g') := by
  intro c hended hp hlt
  rw [run_accept_bind, run_accept_bind]
  split
  · next hkind =>
      have htaken : ∀ t, t = c.current → t.kind ≠ .endOfInput := by
        rintro t rfl
        rwa [hkind]
      -- the way that goes on begins one token further
      exact Alike.bind (alike_advance htaken) (fun _ => h) c hended rfl hlt
  · exact h' c hended hp hlt

/-- Of any kind of token, the mark of the end included, an expected one is not
passed by. -/
theorem alike_expect_any (k : TokenKind) (what : String) :
    Alike p size 0 (expect k what) (expect k what) := by
  rw [expect]
  exact .kind_bind fun k' => .ite (fun _ => advances_advance.alike) fun _ => .unexpected what

/-- An expected token that is not the mark of the end is taken. -/
theorem alike_expect {k : TokenKind} (hk : k ≠ .endOfInput) (what : String) :
    Alike p size 1 (expect k what) (expect k what) := by
  rw [expect]
  refine .kind_bind fun k' => .ite (fun heq => ?_) fun _ => .unexpected what
  refine alike_advance ?_
  rintro t ⟨hkind, -⟩
  rwa [hkind, heq]

/-- A name is an expected token. -/
theorem alike_identifier (what : String) :
    Alike p size 1 (identifier what) (identifier what) := by
  rw [identifier]
  exact .bind (alike_expect (by decide) what) fun _ => .pure rfl

/-! ## Rounds -/

section Rounds

variable {round round' : (σ → Parse α) → σ → Parse α}

/-- **A round, then all of them.**  Rounds that are alike wherever what is
behind them is alike with one token less come to the same, whatever is behind
the last of them. -/
theorem alike_rounds
    (h : ∀ n < size, ∀ next next', (∀ s, Alike (fun _ => True) n least (next s) (next' s)) →
      ∀ s, Alike (fun _ => True) (n + 1) least (round next s) (round' next' s))
    (stop stop' : σ → Parse α) {n : ℕ} (hn : n ≤ size) (s : σ) :
    Alike (fun _ => True) n least (rounds round stop n s) (rounds round' stop' n s) := by
  induction n generalizing s with
  | zero => exact .zero
  | succ n ih => exact h n hn _ _ (ih (Nat.le_of_succ_le hn)) s

/-- A loop is as many rounds as it is given, with the loop without fuel behind
them. -/
theorem Unrolls.eq_rounds {loop : ℕ → σ → Parse α} (h : Unrolls loop round) (n : ℕ) :
    loop n = rounds round (loop 0) n := by
  induction n with
  | zero => rfl
  | succ n ih => rw [h n, ih, rounds]

/-- The same for loops that are made of the rounds. -/
theorem alike_loop {loop loop' : ℕ → σ → Parse α} (hloop : Unrolls loop round)
    (hloop' : Unrolls loop' round')
    (h : ∀ n < size, ∀ next next', (∀ s, Alike (fun _ => True) n least (next s) (next' s)) →
      ∀ s, Alike (fun _ => True) (n + 1) least (round next s) (round' next' s))
    {n : ℕ} (hn : n ≤ size) (s : σ) : Alike p n least (loop n s) (loop' n s) := by
  rw [hloop.eq_rounds, hloop'.eq_rounds]
  exact .anywhere (alike_rounds h _ _ hn s)

/-- Rounds after rounds are rounds; what stood behind the first ones are the
second ones. -/
theorem rounds_add (stop : σ → Parse α) (n k : ℕ) :
    rounds round stop (n + k) = rounds round (rounds round stop k) n := by
  induction n with
  | zero => rw [Nat.zero_add, rounds]
  | succ n ih => rw [Nat.succ_add, rounds, ih, rounds]

/-- **A loop of such rounds ends.**  With more rounds than tokens left, whatever
comes behind them stands behind as many rounds as there are tokens, and there it
makes no difference. -/
theorem ends_of_alike
    (h : ∀ n next next', (∀ s, Alike (fun _ => True) n least (next s) (next' s)) →
      ∀ s, Alike (fun _ => True) (n + 1) least (round next s) (round next' s)) : Ends round := by
  intro c hended n n' hn hn' stop stop' s
  obtain ⟨k, rfl⟩ := Nat.exists_eq_add_of_le hn
  obtain ⟨k', rfl⟩ := Nat.exists_eq_add_of_le hn'
  rw [rounds_add, rounds_add]
  -- both numbers of rounds begin with one for each token that is left and one
  -- more
  have halike := alike_rounds (fun n _ => h n) (rounds round stop k) (rounds round stop' k')
    (Nat.le_refl (c.rest.length + 1)) s
  exact (halike c hended trivial (Nat.lt_succ_self _)).1

end Rounds

end CostAnalysis.Parse
