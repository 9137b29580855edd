import CostAnalysis.Proofs.Formula.Lexemes
import Mathlib.Data.List.Infix
import Mathlib.Logic.Relation

/-!
# Texts of formulas are read back

The text of a formula is an exchange format: costs are written to it and read
from it again.  The main statement is `read?_text`: a generated formula is read
back from its text, node by node.

A formula of binding strength `k` is written so that the rule of strength `k`
reads it: `ReadsAt k cs e` says that this rule takes `cs` off the front of every
text that goes on with something that binds less, and makes `e` of it.  Stronger
rules are part of weaker ones (`ReadsAt.mono`), parentheses turn the weakest
rule into the strongest (`ReadsSum.parenthesized`), and so an operand is
readable in its place (`ReadsAt.operand`).  The rest is one lemma for each way
of building a text.

**Strength on both sides.**  The printer puts an operand in parentheses if its
text binds less than the place asks for, and the reader takes what binds at
least as strongly as it asks for.  The two use the same numbers, and
`ReadsAt.operand` is the only place where these meet.
-/

namespace CostAnalysis.Formula

open Reader Text Relation

/-! ## Chains of operands -/

/-- One step along a chain: a sign and an operand are taken off the front of the
text. -/
def ChainStep (sign : Rule (Formula → Formula → Formula)) (operand : Rule Formula)
    (s t : Formula × List Char) : Prop :=
  ∃ combine rest e, sign s.2 = some (combine, rest) ∧ operand rest = some (e, t.2) ∧
    t.1 = combine s.1 e ∧ t.2.length < s.2.length

variable {cs rest : List Char} {e : Formula}

/-- A chain is read as far as steps lead. -/
theorem chain_eq_of_steps {sign : Rule (Formula → Formula → Formula)} {operand : Rule Formula}
    {s t : Formula × List Char} {fuel : ℕ} (h : ReflTransGen (ChainStep sign operand) s t)
    (hstop : sign t.2 = none) (hfuel : s.2.length ≤ fuel) :
    chain sign operand fuel s.1 s.2 = t := by
  induction h using ReflTransGen.head_induction_on generalizing fuel with
  | refl =>
      cases fuel with
      | zero => rfl
      | succ fuel => rw [chain, hstop]
  | head hstep _ ih =>
      obtain ⟨combine, rest, e, hsign, hoperand, hvalue, hlength⟩ := hstep
      cases fuel with
      | zero => omega
      | succ fuel =>
          rw [chain, hsign]
          simp only [hoperand, ← hvalue]
          exact ih (by omega)

/-! ## The rules of the reader

The reader goes to a bounded depth.  The statements below are about every bound
that is at least the length of the text, because a formula is read as a part of
others, with whatever bound is left there. -/

/-- The text is read as a sum, up to what may follow one. -/
def ReadsSum (cs : List Char) (e : Formula) : Prop :=
  ∀ n rest, cs.length ≤ n → MayFollow 1 rest →
    Reader.sum (signed n) (cs ++ rest) = some (e, skip rest)

/-- The text is read as a product, or as the beginning of a longer one. -/
def ReadsProduct (cs : List Char) (e : Formula) : Prop :=
  ∀ n rest, cs.length ≤ n → MayFollow 3 rest →
    ∃ first, signed n (cs ++ rest) = some first ∧
      ReflTransGen (ChainStep productSign (signed n)) first (e, skip rest)

/-- The text is read as a power. -/
def ReadsPower (cs : List Char) (e : Formula) : Prop :=
  ∀ n rest, cs.length ≤ n → MayFollow 3 rest → signed n (cs ++ rest) = some (e, skip rest)

/-- The text is read as an atom. -/
def ReadsAtom (cs : List Char) (e : Formula) : Prop :=
  ∀ n rest, cs.length ≤ n + 1 → MayFollow 4 rest →
    atom (Reader.sum (signed n)) (cs ++ rest) = some (e, skip rest)

/-- The text is read by the rule of binding strength `k`. -/
def ReadsAt : ℕ → List Char → Formula → Prop
  | 0 | 1 => ReadsSum
  | 2 => ReadsProduct
  | 3 => ReadsPower
  | _ => ReadsAtom

/-- Nothing that begins with a minus sign is an atom. -/
theorem atom_of_symbol_minus {sum : Rule Formula} {after : List Char}
    (h : symbol '-' cs = some after) : atom sum cs = none := by
  obtain ⟨left, hleft, -⟩ := Option.map_eq_some_iff.mp h
  cases hskip : skip cs with
  | nil => simp [hskip, char] at hleft
  | cons c cs' =>
      simp only [hskip, char, Option.ite_none_right_eq_some, beq_iff_eq] at hleft
      obtain ⟨rfl, -⟩ := hleft
      rw [atom, hskip]
      rfl

/-- An atom is not empty. -/
theorem ReadsAtom.ne_nil (h : ReadsAtom cs e) : cs ≠ [] := by
  rintro rfl
  exact Option.some_ne_none _ (h 0 [] (by simp) .nil).symm

/-- Where an atom can be read, a power is read. -/
theorem signed_of_atom {n : ℕ} {e : Formula} {after : List Char}
    (h : atom (Reader.sum (signed n)) cs = some (e, after)) :
    signed (n + 1) cs = power (signed n) (atom (Reader.sum (signed n))) cs := by
  have hminus : symbol '-' cs = none := by
    by_contra hsome
    obtain ⟨left, hleft⟩ := Option.ne_none_iff_exists'.mp hsome
    simp [atom_of_symbol_minus hleft] at h
  simp only [signed, hminus]

/-- **Stronger rules are part of weaker ones**: an atom is a power, if no
exponent follows. -/
theorem ReadsAtom.readsPower (h : ReadsAtom cs e) : ReadsPower cs e := by
  intro n rest hn hrest
  have hlength : 0 < cs.length := List.length_pos_iff.mpr h.ne_nil
  obtain ⟨m, rfl⟩ : ∃ m, n = m + 1 := ⟨n - 1, by omega⟩
  have hatom := h m rest hn (hrest.mono (by decide))
  rw [signed_of_atom hatom, power, hatom]
  simp [hrest.powerSign]

theorem ReadsPower.readsProduct (h : ReadsPower cs e) : ReadsProduct cs e :=
  fun n rest hn hrest => ⟨_, h n rest hn hrest, .refl⟩

/-- A product is read up to its end. -/
theorem ReadsProduct.chained (h : ReadsProduct cs e) {n : ℕ} (hn : cs.length ≤ n)
    (hrest : MayFollow 2 rest) :
    chained productSign (signed n) (cs ++ rest) = some (e, skip rest) := by
  obtain ⟨first, hfirst, hsteps⟩ := h n rest hn (hrest.mono (by decide))
  rw [Reader.chained, hfirst]
  exact congrArg some (chain_eq_of_steps hsteps hrest.productSign le_rfl)

theorem ReadsProduct.readsSum (h : ReadsProduct cs e) : ReadsSum cs e := by
  intro n rest hn hrest
  rw [Reader.sum, Reader.chained, h.chained hn (hrest.mono (by decide))]
  exact congrArg some (chain_eq_of_steps (s := (e, skip rest)) .refl hrest.sumSign le_rfl)

/-- A stronger rule reads no less than a weaker one. -/
theorem ReadsAt.mono {k l : ℕ} (h : ReadsAt l cs e) (hkl : k ≤ l) : ReadsAt k cs e := by
  have hstep : ∀ k, ReadsAt (k + 1) cs e → ReadsAt k cs e
    | 0, h => h
    | 1, h => ReadsProduct.readsSum h
    | 2, h => ReadsPower.readsProduct h
    | 3, h => ReadsAtom.readsPower h
    | _ + 4, h => h
  induction hkl with
  | refl => exact h
  | step _ ih => exact ih (hstep _ h)

/-! ## Parentheses -/

/-- Parentheses turn a sum into an atom. -/
theorem ReadsSum.parenthesized (h : ReadsSum cs e) : ReadsAtom ('(' :: cs ++ [')']) e := by
  intro n rest hn hrest
  have hsum := h n (')' :: rest) (by simp at hn; omega) (.close rest)
  have hgroup : group (Reader.sum (signed n)) ('(' :: (cs ++ ')' :: rest)) = some (e, rest) := by
    simp [group, char, hsum, skip, isSpace]
  have hatom : atom (Reader.sum (signed n)) ('(' :: (cs ++ ')' :: rest)) =
      (group (Reader.sum (signed n)) ('(' :: (cs ++ ')' :: rest))).map
        fun result => (result.1, skip result.2) := rfl
  simp [hatom, hgroup]

/-- **An operand is readable in its place.** -/
theorem ReadsAt.operand {k : ℕ} {text : String} (h : ReadsAt e.precedence text.toList e)
    (hk : k ≤ 4) : ReadsAt k (operandText e k text).toList e := by
  rw [operandText]
  split
  · have hsum : ReadsSum text.toList e := h.mono (k := 0) (Nat.zero_le _)
    have hatom : ReadsAtom (CostAnalysis.parenthesized text).toList e := by
      simpa [CostAnalysis.parenthesized] using hsum.parenthesized
    exact ReadsAt.mono (l := 4) hatom hk
  · exact h.mono (by omega)

/-! ## Leaves

Which rule of an atom applies is decided by its first character, and for names
by what stands behind them.  A fragment is written as a call, and read as one
before a name is tried. -/

/-- What begins like a name is read as one of the calls or as a variable. -/
theorem atom_of_isNameStart {c : Char} (hc : isNameStart c = true) (sum : Rule Formula)
    (cs : List Char) :
    atom sum (c :: cs) = (sumCall sum (c :: cs) <|> unknownCall (c :: cs) <|> call sum (c :: cs) <|>
      variableName (c :: cs) <|> group sum (c :: cs)).map fun (e, rest) => (e, skip rest) := by
  have hspace := isSpace_of_isNamePart (isNamePart_of_isNameStart hc)
  have hskip : skip (c :: cs) = c :: cs := skip_of_stopsAt fun d hd => by cases hd; exact hspace
  rw [atom, hskip, number_of_isNameStart hc]
  rfl

/-- A name that no parenthesis follows is a variable. -/
theorem readsAtom_var {name : String} (hname : IsName name.toList) :
    ReadsAtom name.toList (.var name) := by
  intro n rest _ hrest
  have hall := hname.all
  have hread := name_append hname hrest.stopsAt
  -- the readers are tried in turn, and those of calls refuse, since no
  -- parenthesis follows
  have hsumCall : sumCall (Reader.sum (signed n)) (name.toList ++ rest) = none := by
    have hstart := afterStart_bind_symbol "Sum".toList hall (List.all_eq_true.mp (by decide)) hrest
    simp only [sumCall, Option.bind_eq_bind, ← Option.bind_assoc, hstart, Option.bind_none]
  have hunknown : unknownCall (name.toList ++ rest) = none := by
    have hstart := afterStart_bind_symbol "unknown".toList hall
      (List.all_eq_true.mp (by decide)) hrest
    simp only [unknownCall, Option.bind_eq_bind, ← Option.bind_assoc, hstart, Option.bind_none]
  have hcall : call (Reader.sum (signed n)) (name.toList ++ rest) = none := by
    simp [call, hread, hrest.symbol_open]
  have hvariable : variableName (name.toList ++ rest) = some (.var name, rest) := by
    simp [variableName, hread]
  obtain ⟨c, more, hchars, hc, -⟩ := hname
  rw [hchars] at hsumCall hunknown hcall hvariable ⊢
  rw [List.cons_append] at *
  rw [atom_of_isNameStart hc, hsumCall, hunknown, hcall, hvariable]
  rfl

/-- A numeral is the number that it is read as. -/
theorem readsAtom_number {v : Scalar} (hcs : IsNumeral cs) (hv : Scalar.read? cs = some v) :
    ReadsAtom cs (.num v) := by
  intro n rest _ hrest
  have hread := number_append hcs hv hrest.stopsAt
  have hspace : StopsAt isSpace (cs ++ rest) := by
    obtain ⟨c, more, rfl, hc⟩ := hcs.start
    exact stopsAt_cons (isSpace_of_isNamePart (isNamePart_of_isAsciiDigit hc)) _
  rw [atom, skip_of_stopsAt hspace, hread]
  rfl

/-- A natural number is read back from its text. -/
theorem readsAtom_nat {n : ℕ} (hn : Scalar.fits n = true) :
    ReadsAtom (toString n).toList (.num (.ofNat n)) := by
  refine readsAtom_number (isNumeral_toString n) ?_
  rw [Nat.toString_eq_repr, Nat.toList_repr]
  exact read?_toDigits n hn

/-- An opaque fragment is read up to the parenthesis that closes it, and
trimmed. -/
theorem readsAtom_unknownCall {b b' : List Char} (hb : IsBlanks b) (hb' : IsBlanks b')
    (hstop : StopsAt isSpace cs)
    (hcs : ∀ rest, balanced 0 (cs ++ ')' :: rest) = some (cs, ')' :: rest)) :
    ReadsAtom ("unknown".toList ++ (b ++ '(' :: (b' ++ (cs ++ [')']))))
      (.unknown (String.ofList (trim cs))) := by
  intro n rest _ _
  have hcall := unknownCall_append hb hb' hstop hcs rest
  have hatom := atom_of_isNameStart (c := 'u') (by decide) (Reader.sum (signed n))
    ("nknown".toList ++ (b ++ '(' :: (b' ++ (cs ++ ')' :: rest))))
  simp only [List.append_assoc, List.cons_append, List.nil_append]
  refine hatom.trans ?_
  change (none <|>
    unknownCall ("unknown".toList ++ (b ++ '(' :: (b' ++ (cs ++ ')' :: rest)))) <|> _).map _ = _
  rw [hcall]
  rfl

/-- One without blanks at its ends is read as it is. -/
theorem readsAtom_unknown {t : String} (ht : IsFragment t.toList) :
    ReadsAtom ("unknown".toList ++ '(' :: (t.toList ++ [')'])) (.unknown t) := by
  have hstop : StopsAt isSpace t.toList := by
    intro c hc
    by_contra hspace
    rw [Bool.not_eq_false] at hspace
    have hblank := stopsAt_of_trim_eq ht.trimmed c hc
    simp [isBlank_of_isSpace hspace] at hblank
  have hread := readsAtom_unknownCall isBlanks_nil isBlanks_nil hstop fun rest =>
    balanced_append (by simpa using ht.opened) (by simpa using ht.closed)
  rw [ht.trimmed, String.ofList_toList] at hread
  exact hread

/-! ## Operators

Each operator takes a text on either side and reads what is between blanks.  The
readers of the two sides are given, with the strength that their place asks
for. -/

/-- Blanks before a sign do not matter. -/
theorem signed_skip (n : ℕ) (cs : List Char) : signed n (skip cs) = signed n cs := by
  cases n with
  | zero => rfl
  | succ n => simp [signed, symbol, power, atom]

/-- What is read as a power does not begin with a star. -/
theorem ReadsPower.head?_ne (h : ReadsPower cs e) (rest : List Char) :
    (cs ++ rest).head? ≠ some '*' := by
  have hread := h cs.length [] le_rfl .nil
  cases cs with
  | nil => cases hread
  | cons c cs =>
      rintro heq
      cases heq
      cases hread

/-- A sign makes the opposite. -/
theorem ReadsPower.minus (h : ReadsPower cs e) : ReadsPower ('-' :: cs) e.neg := by
  intro n rest hn hrest
  obtain ⟨m, rfl⟩ : ∃ m, n = m + 1 := ⟨n - 1, by simp at hn; omega⟩
  have hread := h m rest (by simpa using hn) hrest
  simp only [signed, List.cons_append, symbol_cons (c := '-') rfl, signed_skip, hread]
  rfl

/-- A power is read, with either of its signs. -/
theorem ReadsAtom.raise {ds : List Char} {d : Formula} (hbase : ReadsAtom cs e)
    (hexponent : ReadsPower ds d) (sign : List Char) (hne : sign ≠ [])
    (hfollow : ∀ rest, MayFollow 4 (sign ++ rest))
    (hsign : ∀ rest, powerSign (sign ++ rest) = some (skip rest)) :
    ReadsPower (cs ++ (sign ++ ds)) (e.pow d) := by
  intro n rest hn hrest
  have hpos := List.length_pos_of_ne_nil hne
  simp only [List.length_append] at hn
  obtain ⟨m, rfl⟩ : ∃ m, n = m + 1 := ⟨n - 1, by omega⟩
  have hatom := hbase m (sign ++ (ds ++ rest)) (by omega) (hfollow _)
  have hsigned := hexponent m rest (by omega) hrest
  have hsign' : powerSign (skip (sign ++ (ds ++ rest))) = some (skip (ds ++ rest)) := by
    rw [powerSign, skip_skip]
    exact hsign _
  rw [List.append_assoc, List.append_assoc, signed_of_atom hatom, power, hatom]
  simp [hsign', signed_skip, hsigned]

/-- An exponent makes a power. -/
theorem ReadsAtom.pow {ds : List Char} {d : Formula} (hbase : ReadsAtom cs e)
    (hexponent : ReadsPower ds d) : ReadsPower (cs ++ '*' :: '*' :: ds) (e.pow d) :=
  hbase.raise hexponent ['*', '*'] (by simp) (fun _ => .stars _ (by decide))
    fun _ => rfl

theorem ReadsAtom.caret {ds : List Char} {d : Formula} (hbase : ReadsAtom cs e)
    (hexponent : ReadsPower ds d) : ReadsPower (cs ++ '^' :: ds) (e.pow d) :=
  hbase.raise hexponent ['^'] (by simp) (fun _ => .caret _ (by decide)) fun _ => rfl

/-- A product goes on with a sign and a power. -/
theorem ReadsProduct.step {sign : Char} {combine : Formula → Formula → Formula} {ds : List Char}
    {d : Formula} (h : ReadsProduct cs e) (hd : ReadsPower ds d) (hspace : isSpace sign = false)
    (hfollow : ∀ rest, MayFollow 3 (sign :: (ds ++ rest)))
    (hsign : ∀ rest, productSign (sign :: (ds ++ rest)) = some (combine, skip (ds ++ rest))) :
    ReadsProduct (cs ++ sign :: ds) (combine e d) := by
  intro n rest hn hrest
  have hskip : skip (sign :: (ds ++ rest)) = sign :: (ds ++ rest) := by simp [skip, hspace]
  obtain ⟨first, hfirst, hsteps⟩ := h n (sign :: (ds ++ rest)) (by simp at hn; omega) (hfollow rest)
  refine ⟨first, by rwa [List.append_assoc, List.cons_append], hsteps.tail ?_⟩
  refine ⟨combine, skip (ds ++ rest), d, ?_, ?_, rfl, ?_⟩
  · rw [hskip, hsign]
  · rw [signed_skip, hd n rest (by simp at hn; omega) hrest]
  · have hlength := length_skip_le rest
    simp only [hskip, List.length_cons, List.length_append]
    omega

/-- One more factor behind a product. -/
theorem ReadsProduct.mul {ds : List Char} {d : Formula} (h : ReadsProduct cs e)
    (hd : ReadsPower ds d) : ReadsProduct (cs ++ '*' :: ds) (e.mul d) := by
  refine h.step hd rfl (fun rest => .star _ (by decide) (hd.head?_ne rest)) fun rest => ?_
  have hhead := hd.head?_ne rest
  cases hcs : ds ++ rest with
  | nil => rfl
  | cons c more =>
      have hc : c ≠ '*' := fun heq => hhead (by rw [hcs, heq]; rfl)
      simp [productSign, skip, isSpace, hc]

theorem ReadsProduct.div {ds : List Char} {d : Formula} (h : ReadsProduct cs e)
    (hd : ReadsPower ds d) : ReadsProduct (cs ++ '/' :: ds) (e.div d) :=
  h.step hd rfl (fun rest => .slash _ (by decide)) fun rest => rfl

/-! ## Calls

Which rule takes a call is decided by the name in front of the parenthesis.  So
the names of functions are listed, and none of them is that of a summation or of
an opaque fragment, nor the beginning of one. -/

/-- The reader of sums passes over blanks before the sum. -/
theorem sum_skip (n : ℕ) (cs : List Char) :
    Reader.sum (signed n) (skip cs) = Reader.sum (signed n) cs := by
  simp [Reader.sum, chained, signed_skip]

/-- Blanks may stand before a sum. -/
theorem ReadsSum.blanks {b : List Char} (h : ReadsSum cs e) (hb : IsBlanks b) :
    ReadsSum (b ++ cs) e := by
  intro n rest hn hrest
  rw [List.append_assoc, ← sum_skip, skip_blanks hb, sum_skip]
  exact h n rest (by simp at hn; omega) hrest

variable {b function ds : List Char} {d result : Formula}

/-- The functions that can be called. -/
def functionNames : List String :=
  ["min", "Min", "max", "Max", "log", "lg", "ln", "log2", "sqrt", "floor", "ceil"]

/-- Only these functions can be called. -/
theorem mem_functionNames {second : Option Formula}
    (h : apply (String.ofList function) e second = some result) :
    String.ofList function ∈ functionNames := by
  cases second with
  | some b =>
      simp only [apply, Bool.or_eq_true, beq_iff_eq] at h
      split at h
      · next hname => rcases hname with h | h <;> simp [functionNames, h]
      · split at h
        · next hname => rcases hname with h | h <;> simp [functionNames, h]
        · cases h
  | none =>
      simp only [apply, Bool.or_eq_true, beq_iff_eq] at h
      split at h
      · next hname => rcases hname with ((h | h) | h) | h <;> simp [functionNames, h]
      · split at h
        · next hname => simp [functionNames, hname]
        · split at h
          · next hname => rcases hname with h | h <;> simp [functionNames, h]
          · cases h

/-- The name of a function begins like that of no other kind of call. -/
theorem exists_of_mem_functionNames (h : String.ofList function ∈ functionNames) :
    ∃ c more, function = c :: more ∧ isNameStart c = true ∧ c ≠ 'S' ∧ c ≠ 'u' := by
  have hfirst := List.all_eq_true.mp (by decide : (functionNames.all fun name =>
    name.toList.head?.any fun c => isNameStart c && c != 'S' && c != 'u') = true) _ h
  rw [String.toList_ofList] at hfirst
  cases function with
  | nil => cases hfirst
  | cons c more =>
      have hc : (isNameStart c && c != 'S' && c != 'u') = true := hfirst
      simp only [Bool.and_eq_true, bne_iff_ne] at hc
      exact ⟨c, more, rfl, hc.1.1, hc.1.2, hc.2⟩

/-- The call of a function is read as an atom. -/
theorem atom_of_call {sum : Rule Formula} (hname : String.ofList function ∈ functionNames)
    (h : Reader.call sum (function ++ cs) = some (e, rest)) :
    atom sum (function ++ cs) = some (e, skip rest) := by
  obtain ⟨c, more, rfl, hc, hsum, hunknown⟩ := exists_of_mem_functionNames hname
  have hsumCall : Reader.sumCall sum (c :: more ++ cs) = none := by
    have hstart : afterStart "Sum".toList (c :: more ++ cs) = none := by
      simp [afterStart, Ne.symm hsum]
    rw [Reader.sumCall, hstart]
    rfl
  have hunknownCall : unknownCall (c :: more ++ cs) = none := by
    have hstart : afterStart "unknown".toList (c :: more ++ cs) = none := by
      simp [afterStart, Ne.symm hunknown]
    rw [unknownCall, hstart]
    rfl
  rw [List.cons_append] at *
  rw [atom_of_isNameStart hc, hsumCall, hunknownCall, h]
  rfl

/-- A name ends before a parenthesis, with any blanks before it. -/
theorem stopsAt_blanks_open (hb : IsBlanks b) (cs : List Char) :
    StopsAt isNamePart (b ++ '(' :: cs) := by
  cases b with
  | nil => exact stopsAt_cons (by decide) cs
  | cons c b =>
      refine stopsAt_cons ?_ _
      by_contra hpart
      rw [Bool.not_eq_false] at hpart
      have hspace := hb c List.mem_cons_self
      rw [isSpace_of_isNamePart hpart] at hspace
      cases hspace

/-- A call is read as an atom, whether there is a second argument or not. -/
theorem atom_of_arguments {n : ℕ} {args after : List Char} {second : Option Formula}
    (hname : IsName function) (hb : IsBlanks b)
    (hfirst : Reader.sum (signed n) args = some (e, after))
    (hsecond : secondArgument (Reader.sum (signed n)) after = (second, ')' :: rest))
    (hresult : apply (String.ofList function) e second = some result) :
    atom (Reader.sum (signed n)) (function ++ (b ++ '(' :: args)) = some (result, skip rest) := by
  have hcall : Reader.call (Reader.sum (signed n)) (function ++ (b ++ '(' :: args)) =
      some (result, skip rest) := by
    rw [Reader.call, name_append hname (stopsAt_blanks_open hb _)]
    simp only [Option.bind_eq_bind, Option.bind_some, symbol_blanks hb, symbol_cons (c := '(') rfl,
      sum_skip, hfirst, hsecond, symbol_cons (c := ')') rfl, hresult]
    rfl
  rw [atom_of_call (mem_functionNames hresult) hcall, skip_skip]

/-- A call of one argument is read. -/
theorem ReadsSum.call (h : ReadsSum cs e) (hname : IsName function) (hb : IsBlanks b)
    (hresult : apply (String.ofList function) e none = some result) :
    ReadsAtom (function ++ (b ++ '(' :: (cs ++ [')']))) result := by
  intro n rest hn hrest
  have hread : Reader.sum (signed n) (cs ++ ')' :: rest) = some (e, ')' :: rest) :=
    h n (')' :: rest) (by simp at hn; omega) (.close rest)
  simpa using atom_of_arguments hname hb hread rfl hresult

/-- A call of two arguments is read. -/
theorem ReadsSum.call_two (h : ReadsSum cs e) (hd : ReadsSum ds d) (hname : IsName function)
    (hb : IsBlanks b) (hresult : apply (String.ofList function) e (some d) = some result) :
    ReadsAtom (function ++ (b ++ '(' :: (cs ++ ',' :: (ds ++ [')'])))) result := by
  intro n rest hn hrest
  have hread : Reader.sum (signed n) (cs ++ ',' :: (ds ++ ')' :: rest)) =
      some (e, ',' :: (ds ++ ')' :: rest)) :=
    h n (',' :: (ds ++ ')' :: rest)) (by simp at hn; omega) (.comma _)
  have hargument : Reader.sum (signed n) (ds ++ ')' :: rest) = some (d, ')' :: rest) :=
    hd n (')' :: rest) (by simp at hn; omega) (.close rest)
  have hsecond : secondArgument (Reader.sum (signed n)) (',' :: (ds ++ ')' :: rest)) =
      (some d, ')' :: rest) := by
    simp [secondArgument, char, hargument]
  simpa using atom_of_arguments hname hb hread hsecond hresult

/-- A summation is read. -/
theorem ReadsSum.sumCall {b₁ b₂ b₃ b₄ b₅ index ss ts : List Char} {start stop : Formula}
    (h : ReadsSum cs e) (hindex : IsName index) (hstart : ReadsSum ss start)
    (hstop : ReadsSum ts stop) (hb₁ : IsBlanks b₁) (hb₂ : IsBlanks b₂) (hb₃ : IsBlanks b₃)
    (hb₄ : IsBlanks b₄) (hb₅ : IsBlanks b₅) :
    ReadsAtom ("Sum".toList ++ (b₁ ++ '(' :: (cs ++ ',' :: (b₂ ++ '(' :: (b₃ ++ (index ++
      (b₄ ++ ',' :: (ss ++ ',' :: (ts ++ ')' :: (b₅ ++ [')']))))))))))
      (e.sum (String.ofList index) start stop) := by
  intro n rest hn hrest
  obtain ⟨hcs, hss, hts⟩ : cs.length ≤ n ∧ ss.length ≤ n ∧ ts.length ≤ n := by
    simp only [List.length_append, List.length_cons] at hn
    omega
  -- the text behind each of the four parts, the last one first
  set r₄ := ')' :: (b₅ ++ ')' :: rest) with hr₄
  set r₃ := ',' :: (ts ++ r₄) with hr₃
  set r₂ := b₄ ++ ',' :: (ss ++ r₃) with hr₂
  set r₁ := ',' :: (b₂ ++ '(' :: (b₃ ++ (index ++ r₂))) with hr₁
  have hbody : Reader.sum (signed n) (cs ++ r₁) = some (e, r₁) :=
    h n r₁ hcs (.comma _)
  have hname : name (skip (index ++ r₂)) = some (index, r₂) := by
    obtain ⟨c, more, hchars, hc, -⟩ := id hindex
    rw [skip_of_stopsAt, name_append hindex]
    · exact ((MayFollow.comma (k := 1) _).blanks hb₄).stopsAt
    · rw [hchars]
      exact stopsAt_cons (isSpace_of_isNamePart (isNamePart_of_isNameStart hc)) _
  have hfrom : Reader.sum (signed n) (ss ++ r₃) = some (start, r₃) :=
    hstart n r₃ hss (.comma _)
  have hto : Reader.sum (signed n) (ts ++ r₄) = some (stop, r₄) :=
    hstop n r₄ hts (.close _)
  have hcall : Reader.sumCall (Reader.sum (signed n)) ("Sum".toList ++ (b₁ ++ '(' :: (cs ++ r₁))) =
      some (e.sum (String.ofList index) start stop, skip rest) := by
    have hcomma : symbol ',' r₁ = some (skip (b₂ ++ '(' :: (b₃ ++ (index ++ r₂)))) := rfl
    have hopen : symbol '(' (skip (b₂ ++ '(' :: (b₃ ++ (index ++ r₂)))) =
        some (skip (index ++ r₂)) := by
      rw [skip_blanks hb₂, skip_of_stopsAt (stopsAt_cons rfl _), symbol_cons rfl, skip_blanks hb₃]
    have hskip : skip r₂ = ',' :: (ss ++ r₃) := by
      rw [hr₂, skip_blanks hb₄]
      rfl
    have hchar₂ : char ',' (',' :: (ss ++ r₃)) = some (ss ++ r₃) := rfl
    have hchar₃ : char ',' r₃ = some (ts ++ r₄) := rfl
    have hclose : symbol ')' r₄ = some (skip (b₅ ++ ')' :: rest)) := rfl
    have hlast : symbol ')' (skip (b₅ ++ ')' :: rest)) = some (skip rest) := by
      rw [skip_blanks hb₅, skip_of_stopsAt (stopsAt_cons rfl _), symbol_cons rfl]
    rw [Reader.sumCall, afterStart_append]
    simp only [Option.bind_eq_bind, Option.bind_some, symbol_blanks hb₁, symbol_cons (c := '(') rfl,
      sum_skip, hbody, hcomma, hopen, skip_skip, hname, hskip, hchar₂, hfrom, hchar₃, hto, hclose,
      hlast]
    rfl
  have htext : "Sum".toList ++ (b₁ ++ '(' :: (cs ++ ',' :: (b₂ ++ '(' :: (b₃ ++ (index ++
      (b₄ ++ ',' :: (ss ++ ',' :: (ts ++ ')' :: (b₅ ++ [')']))))))))) ++ rest =
        "Sum".toList ++ (b₁ ++ '(' :: (cs ++ r₁)) := by
    simp only [hr₁, hr₂, hr₃, hr₄, List.append_assoc, List.cons_append, List.nil_append]
  have hatom : ∀ more : List Char, atom (Reader.sum (signed n)) ("Sum".toList ++ more) =
      (Reader.sumCall (Reader.sum (signed n)) ("Sum".toList ++ more) <|> _).map _ :=
    fun more => atom_of_isNameStart (c := 'S') (by decide) _ ('u' :: 'm' :: more)
  rw [htext, hatom, hcall]
  simp

/-! ## Numbers

A number is written with its sign in front and a bar before its denominator, and
so it is read as an opposite and as a quotient, which fold to the number
again. -/

/-- The opposite of a number whose parts fit is folded. -/
theorem neg_num {v : Scalar} (hv : v.Fits) : (Formula.num v).neg = .num (-v) := by
  rw [Formula.neg, hv.neg.isOverflow]
  rfl

/-- An integer is read as a power, with its sign. -/
theorem readsPower_int {z : ℤ} (hz : Scalar.fits z = true) :
    ReadsPower (toString z).toList (.num (.ofInt z)) := by
  cases z with
  | ofNat n => exact (readsAtom_nat hz).readsPower
  | negSucc n =>
      have hfits : Scalar.fits ((n + 1 : ℕ) : ℤ) = true := Scalar.fits_neg hz
      have hread := (readsAtom_nat hfits).readsPower.minus
      have htext : (toString (Int.negSucc n)).toList = '-' :: (toString (n + 1)).toList := by
        simp [toString, Int.repr]
      have hvalue : (Formula.num (.ofNat (n + 1))).neg = .num (.ofInt (Int.negSucc n)) := by
        rw [Scalar.ofNat, Int.ofNat_eq_natCast, neg_num (Scalar.Fits.ofInt hfits),
          Scalar.neg_ofInt hfits]
        rfl
      rwa [htext, ← hvalue]

/-- The two parts of a fraction are folded into it. -/
theorem div_num {q : ℚ} (hnum : Scalar.fits q.num = true) (hden : Scalar.fits q.den = true)
    (hq : q.den ≠ 1) :
    (Formula.num (.ofInt q.num)).div (.num (.ofNat q.den)) = .num (.exact q) := by
  have hone : (Formula.num (.ofNat q.den)).isOne = false := by
    simp [isOne, asNum?, Scalar.isOne, Scalar.ofNat_eq, Scalar.numer, hq]
  have hrecip : (Scalar.ofNat q.den).recip? = some (.exact (q.den : ℚ)⁻¹) :=
    Scalar.recip?_exact (Nat.cast_ne_zero.mpr q.den_nz) hden (by decide : Scalar.fits 1 = true)
  have hproduct : Scalar.mul? (.ofInt q.num) (.exact (q.den : ℚ)⁻¹) = some (.exact q) := by
    have hvalue : (q.num : ℚ) * (q.den : ℚ)⁻¹ = q := by rw [← div_eq_mul_inv, Rat.num_div_den]
    rw [Scalar.ofInt_eq, Scalar.mul?_exact]
    simp [hvalue, hnum, hden]
  have hquotient : (Scalar.ofInt q.num).div? (.ofNat q.den) = some (.exact q) := by
    rw [Scalar.div?, hrecip]
    exact congrArg (fun s => some (Option.getD s .overflow)) hproduct
  rw [Formula.div, hone]
  simp [asNum?, hquotient]

/-- A fraction is read as a product. -/
theorem readsProduct_num {v : Scalar} (hv : v.Fits) : ReadsProduct v.text.toList (.num v) := by
  obtain ⟨q, rfl, hnum, hden⟩ := hv
  have hnumerator := (readsPower_int hnum).readsProduct
  rw [Scalar.text]
  split
  · next hq =>
    have hvalue : Scalar.ofInt q.num = .exact q := by
      rw [Scalar.ofInt_eq, Rat.coe_int_num_of_den_eq_one hq]
    rwa [hvalue] at hnumerator
  · next hq =>
    have hdenominator : ReadsPower (toString q.den).toList (.num (.ofNat q.den)) :=
      (readsAtom_nat hden).readsPower
    have hquotient := hnumerator.div hdenominator
    rw [div_num hnum hden hq] at hquotient
    simpa using hquotient

theorem readsAt_num {v : Scalar} (hv : v.Fits) :
    ReadsAt (Formula.num v).precedence v.text.toList (.num v) := by
  rw [precedence]
  split
  · exact readsProduct_num hv
  · next hplain =>
    obtain ⟨q, rfl, hnum, -⟩ := hv
    simp only [Scalar.isInteger, Scalar.denom, Bool.or_eq_true, not_or, Bool.not_eq_true',
      Bool.not_eq_false, beq_iff_eq] at hplain
    obtain ⟨hnegative, hinteger⟩ := hplain
    obtain ⟨n, hn⟩ := Int.eq_ofNat_of_zero_le (not_lt.mp fun hlt => hnegative (decide_eq_true hlt))
    rw [Scalar.numer] at hn
    have hvalue : Scalar.ofNat n = .exact q := by
      rw [Scalar.ofNat, Int.ofNat_eq_natCast, ← hn, Scalar.ofInt_eq,
        Rat.coe_int_num_of_den_eq_one hinteger]
    rw [hn] at hnum
    rw [Scalar.text, if_pos hinteger, hn, ← hvalue]
    exact readsAtom_nat hnum

/-! ## Sums

The terms of a sum are written with their signs, and a term that begins with a
minus is written as subtracted.  Read from the left, the pieces add up to the
same list of terms, provided that each of them stays a term when it is added. -/

/-- The text is read as a sign and a term behind a sum, to which the term is
added. -/
structure ReadsPiece (cs : List Char) (e : Formula) : Prop where
  step : ∀ n rest acc, cs.length ≤ n → MayFollow 2 rest →
    ChainStep sumSign (chained productSign (signed n)) (acc, skip (cs ++ rest))
      (acc.add e, skip rest)
  mayFollow : ∀ rest, MayFollow 2 (cs ++ rest)

theorem chained_skip (n : ℕ) (cs : List Char) :
    chained productSign (signed n) (skip cs) = chained productSign (signed n) cs := by
  simp [chained, signed_skip]

section Piece

variable {b b' : List Char} (hb : IsBlanks b) (hb' : IsBlanks b')
include hb hb'

/-- **One more term** behind a sum is a sign and a product, with blanks around
the sign. -/
theorem ReadsProduct.piece {sign : Char} {combine : Formula → Formula → Formula} {d : Formula}
    (h : ReadsProduct cs e) (hspace : isSpace sign = false)
    (hsign : ∀ rest, sumSign (sign :: rest) = some (combine, skip rest))
    (hfollow : ∀ rest, MayFollow 2 (sign :: rest)) (hvalue : ∀ acc, combine acc e = acc.add d) :
    ReadsPiece (b ++ sign :: (b' ++ cs)) d := by
  refine ⟨fun n rest acc hn hrest => ?_, fun rest => ?_⟩
  · have hskip : skip (b ++ sign :: (b' ++ cs) ++ rest) = sign :: (b' ++ (cs ++ rest)) := by
      rw [List.append_assoc, skip_blanks hb, List.cons_append, List.append_assoc,
        skip_of_stopsAt (stopsAt_cons hspace _)]
    refine ⟨combine, skip (b' ++ (cs ++ rest)), e, ?_, ?_, (hvalue acc).symm, ?_⟩
    · rw [hskip, hsign]
    · rw [skip_blanks hb', chained_skip, h.chained (by simp at hn; omega) hrest]
    · have hlength := length_skip_le rest
      simp only [hskip, List.length_cons, List.length_append]
      omega
  · rw [List.append_assoc]
    exact (hfollow _).blanks hb

theorem ReadsProduct.plus_piece (h : ReadsProduct cs e) : ReadsPiece (b ++ '+' :: (b' ++ cs)) e :=
  h.piece hb hb' rfl (fun _ => rfl) (fun _ => .plusSign _ (by decide)) fun _ => rfl

theorem ReadsProduct.minus_piece {d : Formula} (h : ReadsProduct cs e) (hneg : e.neg = d) :
    ReadsPiece (b ++ '-' :: (b' ++ cs)) d :=
  h.piece hb hb' rfl (fun _ => rfl) (fun _ => .minusSign _ (by decide)) fun acc =>
    congrArg acc.add hneg

end Piece

/-- The text is a product and pieces behind it, whose terms are added up from
the left. -/
inductive ReadsTerms : List Char → Formula → Prop
  | product {cs : List Char} {e : Formula} (h : ReadsProduct cs e) : ReadsTerms cs e
  | piece {cs ds : List Char} {e d : Formula} (h : ReadsTerms cs e) (hd : ReadsPiece ds d) :
      ReadsTerms (cs ++ ds) (e.add d)

/-- **Terms behind a product** are read one by one, each by a step of the
chain. -/
theorem ReadsTerms.steps (h : ReadsTerms cs e) {n : ℕ} {rest : List Char} (hn : cs.length ≤ n)
    (hrest : MayFollow 2 rest) :
    ∃ first, chained productSign (signed n) (cs ++ rest) = some first ∧
      ReflTransGen (ChainStep sumSign (chained productSign (signed n))) first (e, skip rest) := by
  induction h generalizing rest with
  | product h => exact ⟨_, h.chained hn hrest, .refl⟩
  | @piece cs ds e d _ hd ih =>
      rw [List.length_append] at hn
      obtain ⟨first, hfirst, hsteps⟩ := ih (by omega) (hd.mayFollow rest)
      rw [List.append_assoc]
      exact ⟨first, hfirst, hsteps.tail (hd.step n rest e (by omega) hrest)⟩

/-- What is read term by term is read as a sum. -/
theorem ReadsTerms.readsSum (h : ReadsTerms cs e) : ReadsSum cs e := by
  intro n rest hn hrest
  obtain ⟨first, hfirst, hsteps⟩ := h.steps hn (hrest.mono (by decide))
  rw [Reader.sum, Reader.chained, hfirst]
  exact congrArg some (chain_eq_of_steps hsteps hrest.sumSign le_rfl)

/-- Any number of further terms can follow.  The induction is on their number,
and each is added to the sum so far. -/
theorem ReadsTerms.pieces (h : ReadsTerms cs e) (pieces : List (List Char × Formula))
    (hpieces : ∀ piece ∈ pieces, ReadsPiece piece.1 piece.2) :
    ReadsTerms (cs ++ pieces.flatMap Prod.fst)
      (pieces.foldl (fun sum piece => sum.add piece.2) e) := by
  induction pieces generalizing cs e with
  | nil => simpa using h
  | cons piece pieces ih =>
      obtain ⟨hpiece, hpieces⟩ := List.forall_mem_cons.mp hpieces
      rw [List.flatMap_cons, ← List.append_assoc]
      exact ih (h.piece hpiece) hpieces

/-- A formula that is read back from its text, by itself and as a term of a
sum. -/
structure Readable (e : Formula) : Prop where
  whole : ReadsAt e.precedence e.text.toList e
  piece : ReadsPiece (sumText false [e]).toList e

/-- A formula that is no number and no opposite is added with a plus sign. -/
theorem Readable.of_readsAt (h : ReadsAt e.precedence e.text.toList e)
    (hpiece : sumText false [e] = " + " ++ operandText e 2 e.text) : Readable e := by
  refine ⟨h, ?_⟩
  have hproduct : ReadsProduct (operandText e 2 e.text).toList e := h.operand (k := 2) (by decide)
  simpa [hpiece] using hproduct.plus_piece isBlanks_singleton isBlanks_singleton

/-- The text of an operand of a readable formula. -/
theorem Readable.operand (h : Readable e) {k : ℕ} (hk : k ≤ 4) :
    ReadsAt k (operandText e k e.text).toList e :=
  h.whole.operand hk

theorem Readable.readsSum (h : Readable e) : ReadsSum e.text.toList e :=
  h.whole.mono (k := 0) (Nat.zero_le _)

/-- A number is readable. -/
theorem readable_num {v : Scalar} (hv : v.Fits) : Readable (.num v) := by
  refine ⟨readsAt_num hv, ?_⟩
  by_cases hnegative : v.isNegative = true
  · have habs : v.abs = -v := if_pos hnegative
    have hneg : (Formula.num (-v)).neg = .num v := by rw [neg_num hv.neg, hv.neg_neg]
    simpa [sumText, hnegative, habs] using
      (readsProduct_num hv.neg).minus_piece isBlanks_singleton isBlanks_singleton hneg
  · have hproduct : ReadsProduct (operandText (.num v) 2 v.text).toList (.num v) :=
      (readsAt_num hv).operand (k := 2) (by decide)
    simpa [sumText, hnegative] using hproduct.plus_piece isBlanks_singleton isBlanks_singleton

theorem Readable.minus (h : Readable e) (hneg : e.neg = .minus e) : Readable (.minus e) := by
  refine ⟨(?_ : ReadsProduct _ _), ?_⟩
  · have hpower : ReadsPower (operandText e 3 e.text).toList e := h.operand (k := 3) (by decide)
    have hread := hpower.minus.readsProduct
    rw [hneg] at hread
    simpa [text] using hread
  · have hproduct : ReadsProduct (operandText e 2 e.text).toList e := h.operand (k := 2) (by decide)
    simpa [sumText] using hproduct.minus_piece isBlanks_singleton isBlanks_singleton hneg

/-- The text of a sum behind its first term is that of each term with its
sign. -/
theorem sumText_eq_flatMap (es : List Formula) :
    (sumText false es).toList = es.flatMap fun e => (sumText false [e]).toList := by
  induction es with
  | nil => rfl
  | cons e es ih =>
      have hcons : sumText false (e :: es) = sumText false [e] ++ sumText false es := by
        cases e <;> simp [sumText]
      rw [hcons, String.toList_append, ih, List.flatMap_cons]

/-- Canonical terms are added to a sum one by one. -/
theorem foldl_add_sumOf {done es : List Formula} (hdone : done ≠ [])
    (hterms : ∀ e ∈ done, IsTerm e) (hes : ∀ e ∈ es, IsTerm e ∧ Canonical e) :
    es.foldl add (sumOf done) = sumOf (done ++ es) := by
  induction es generalizing done with
  | nil => rw [List.append_nil, List.foldl_nil]
  | cons e es ih =>
      obtain ⟨⟨hterm, hcanonical⟩, hes⟩ := List.forall_mem_cons.mp hes
      have hzero : e.isZero = false := by simp [isZero, hterm.2]
      have hmore : ∀ d ∈ done ++ [e], IsTerm d := by
        intro d hd
        rcases List.mem_append.mp hd with hd | hd
        · exact hterms d hd
        · rw [List.mem_singleton.mp hd]
          exact hterm
      rw [List.foldl_cons, add_sumOf hdone hterms hcanonical ⟨hterm.1, hzero⟩,
        ih (by simp) hmore hes, List.append_assoc]
      rfl

/-- **A sum is read back**: its terms are added one by one, and the last one may
be a number. -/
theorem readsSum_plus {init : List Formula} {last : Formula} (hne : init ≠ [])
    (hinit : ∀ e ∈ init, IsTerm e ∧ Canonical e ∧ Readable e) (hlast : Canonical last)
    (hread : Readable last) (hend : last.addends = [last] ∧ last.isZero = false) :
    ReadsSum (Formula.plus (init ++ [last])).text.toList (.plus (init ++ [last])) := by
  -- the first term is read as a product, and the others are pieces behind it
  obtain ⟨first, more, rfl⟩ := List.exists_cons_of_ne_nil hne
  have hproduct : ReadsProduct (operandText first 2 first.text).toList first :=
    (hinit first (by simp)).2.2.operand (k := 2) (by decide)
  have hreadable : ∀ e ∈ more ++ [last], Readable e := by
    intro e he
    rcases List.mem_append.mp he with he | he
    · exact (hinit e (by simp [he])).2.2
    · rw [List.mem_singleton.mp he]
      exact hread
  have hsum := ((ReadsTerms.product hproduct).pieces
    ((more ++ [last]).map fun e => ((sumText false [e]).toList, e)) fun piece hpiece => by
      obtain ⟨e, he, rfl⟩ := List.mem_map.mp hpiece
      exact (hreadable e he).piece).readsSum
  have hvalue : (more ++ [last]).foldl add first = .plus (first :: more ++ [last]) := by
    have hterms : ∀ e ∈ first :: more, IsTerm e := fun e he => (hinit e he).1
    have hmore : more.foldl add (sumOf [first]) = sumOf ([first] ++ more) :=
      foldl_add_sumOf (by simp) (by simpa using (hinit first (by simp)).1)
        fun e he => ⟨(hinit e (by simp [he])).1, (hinit e (by simp [he])).2.1⟩
    show (more ++ [last]).foldl add (sumOf [first]) = _
    rw [List.foldl_append, hmore, List.singleton_append, List.foldl_cons, List.foldl_nil,
      add_sumOf hne hterms hlast hend, sumOf_of_two_le (by simp)]
  have htext : (Formula.plus (first :: more ++ [last])).text.toList =
      (operandText first 2 first.text).toList ++ (sumText false (more ++ [last])).toList := by
    rw [← String.toList_append]
    rfl
  rw [List.foldl_map, hvalue, List.flatMap_map] at hsum
  rw [htext, sumText_eq_flatMap]
  exact hsum

/-! ## Products -/

/-- **Factors behind a product** are multiplied to it one by one. -/
theorem ReadsProduct.factors {first : Formula} (h : ReadsProduct cs first)
    (hfirst : Canonical first)
    (hhead : first.multiplicands = [first] ∧ first.isZero = false ∧ first.isOne = false)
    (parts : List (List Char × Formula))
    (hparts : ∀ part ∈ parts, ReadsPower part.1 part.2 ∧ IsFactor part.2) :
    ReadsProduct (cs ++ parts.flatMap fun part => '*' :: part.1)
      (productOf (first :: parts.map Prod.snd)) := by
  -- the product of those that were read already grows at its end
  have hgrow : ∀ (more : List (List Char × Formula)) (done : List Formula) (cs : List Char),
      (∀ e ∈ done, IsFactor e) → more ⊆ parts → ReadsProduct cs (productOf (first :: done)) →
      ReadsProduct (cs ++ more.flatMap fun part => '*' :: part.1)
        (productOf (first :: (done ++ more.map Prod.snd))) := by
    intro more
    induction more with
    | nil =>
        intro done cs _ _ hread
        simpa using hread
    | cons part more ih =>
        intro done cs hdone hmore hread
        obtain ⟨hpart, hmore⟩ := List.cons_subset.mp hmore
        obtain ⟨hpower, hfactor⟩ := hparts part hpart
        have hstep := hread.mul hpower
        rw [mul_productOf hfirst hhead hdone hfactor] at hstep
        have hdone' : ∀ e ∈ done ++ [part.2], IsFactor e := by
          intro e he
          rcases List.mem_append.mp he with he | he
          · exact hdone e he
          · rw [List.mem_singleton.mp he]
            exact hfactor
        simpa using ih (done ++ [part.2]) _ hdone' hmore hstep
  simpa using hgrow parts [] cs (by simp) (List.Subset.refl _) h

/-- The text of a product behind its first factor is that of each factor behind
a star. -/
theorem productText_eq_flatMap (es : List Formula) :
    (productText false es).toList = es.flatMap fun e => '*' :: (operandText e 3 e.text).toList := by
  induction es with
  | nil => simp [productText]
  | cons e es ih => simp [productText, ih]

/-! ## The round trip

By induction over canonical formulas: each is readable by itself and as a term
of a sum, and these are the two places in which a text can stand. -/

/-- **Every canonical formula is readable**, by induction over its shape, with
one case for each way of writing a node. -/
theorem Canonical.readable {e : Formula} (he : Canonical e) : Readable e := by
  induction he with
  | num hv => exact readable_num hv
  | var hname => exact .of_readsAt (readsAtom_var hname) (by simp [sumText])
  | unknown ht =>
      refine .of_readsAt (?_ : ReadsAtom _ _) (by simp [sumText])
      simpa [text] using readsAtom_unknown ht
  | plus hne hinit hlast hterms hend ihinit ihlast =>
      refine .of_readsAt (?_ : ReadsSum _ _) (by simp [sumText])
      exact readsSum_plus hne (fun e he => ⟨hterms e he, hinit e he, ihinit e he⟩) hlast ihlast hend
  | @times first rest hne hfirst hrest hhead hfactors ihfirst ihrest =>
      refine .of_readsAt (?_ : ReadsProduct _ _) (by simp [sumText])
      have hproduct : ReadsProduct (operandText first 2 first.text).toList first :=
        ihfirst.operand (k := 2) (by decide)
      have hread := hproduct.factors hfirst hhead
        (rest.map fun e => ((operandText e 3 e.text).toList, e)) fun part hpart => by
          obtain ⟨e, he, rfl⟩ := List.mem_map.mp hpart
          exact ⟨(ihrest e he).operand (k := 3) (by decide), hfactors e he⟩
      -- with two factors the product is not unwrapped
      have hlength : 2 ≤ (first :: rest).length := by
        have hpos := List.length_pos_iff.mpr hne
        simp only [List.length_cons]
        omega
      rw [List.map_map, List.flatMap_map] at hread
      simpa [text, Formula.productText, productText_eq_flatMap, Function.comp_def,
        productOf_of_two_le hlength] using hread
  | minus _ hneg iha => exact iha.minus hneg
  | quotient _ _ hdiv iha ihb =>
      refine .of_readsAt (?_ : ReadsProduct _ _) (by simp [sumText])
      have hnumerator : ReadsProduct _ _ := iha.operand (k := 2) (by decide)
      have hdenominator : ReadsPower _ _ := ihb.operand (k := 3) (by decide)
      have hread := hnumerator.div hdenominator
      rw [hdiv] at hread
      simpa [text] using hread
  | raised _ _ hpow iha ihb =>
      refine .of_readsAt (?_ : ReadsPower _ _) (by simp [sumText])
      have hbase : ReadsAtom _ _ := iha.operand (k := 4) le_rfl
      have hexponent : ReadsAtom _ _ := ihb.operand (k := 4) le_rfl
      have hread := hbase.pow hexponent.readsPower
      rw [hpow] at hread
      simpa [text] using hread
  | logOf _ iha =>
      refine .of_readsAt (?_ : ReadsAtom _ _) (by simp [sumText])
      have hread := iha.readsSum.call ⟨'l', ['o', 'g'], rfl, by decide, by decide⟩ isBlanks_nil rfl
      simpa [text, log] using hread
  | @minOf a b _ _ hmin iha ihb =>
      refine .of_readsAt (?_ : ReadsAtom _ _) (by simp [sumText])
      have hread : ReadsAtom _ (a.min b) :=
        iha.readsSum.call_two (ihb.readsSum.blanks isBlanks_singleton)
          ⟨'M', ['i', 'n'], rfl, by decide, by decide⟩ isBlanks_nil rfl
      rw [hmin] at hread
      simpa [text] using hread
  | @maxOf a b _ _ hmax iha ihb =>
      refine .of_readsAt (?_ : ReadsAtom _ _) (by simp [sumText])
      have hread : ReadsAtom _ (a.max b) :=
        iha.readsSum.call_two (ihb.readsSum.blanks isBlanks_singleton)
          ⟨'M', ['a', 'x'], rfl, by decide, by decide⟩ isBlanks_nil rfl
      rw [hmax] at hread
      simpa [text] using hread
  | sumOver _ hindex _ _ hsum ihbody ihstart ihstop =>
      refine .of_readsAt (?_ : ReadsAtom _ _) (by simp [sumText])
      have hread := ihbody.readsSum.sumCall hindex (ihstart.readsSum.blanks isBlanks_singleton)
        (ihstop.readsSum.blanks isBlanks_singleton) isBlanks_nil isBlanks_singleton isBlanks_nil
        isBlanks_nil isBlanks_nil
      rw [String.ofList_toList, hsum] at hread
      simpa [text] using hread

/-- What is read as a sum is read when nothing follows it. -/
theorem ReadsSum.read?_eq {text : String} {e : Formula} (h : ReadsSum text.toList e) :
    read? text = some e := by
  have hread := h (text.toList.length + 1) [] (by omega) .nil
  rw [List.append_nil] at hread
  rw [read?, ofChars?, hread]
  rfl

/-- **A generated formula is read back from its text.** -/
theorem read?_text {e : Formula} (he : Generated e) : read? e.text = some e :=
  he.canonical.readable.readsSum.read?_eq

/-- A cost in which every kind of place of the format occurs: a sum in an
exponent, a fraction before a product, an opaque fragment with parentheses, and
a summation. -/
def nestedCost : Formula :=
  ((((var "x").pow ((var "n").sub (num 3))).div (num 2)).add (unknown "f(y)")).sum "i"
    ((var "n").neg.min (num 1)) (((num 1).div (num 2)).neg.mul (var "n"))

/-- The formula `nestedCost` is built by the constructors, and its constants
fold. -/
theorem generated_nestedCost : Generated nestedCost := by
  have hx : Generated (var "x") := .var ⟨'x', [], by decide, by decide, by decide⟩
  have hn : Generated (var "n") := .var ⟨'n', [], by decide, by decide, by decide⟩
  have hnum : ∀ k : ℕ, Scalar.fits k = true → Generated (num (.ofNat k)) :=
    fun k hk => .num (Scalar.Fits.ofInt hk)
  have hfragment : IsFragment "f(y)".toList := by
    refine ⟨by decide, fun start hstart => ?_, by decide⟩
    have hall : ∀ start ∈ "f(y)".toList.inits, start.count ')' ≤ start.count '(' := by decide
    exact hall start ((List.mem_inits _ _).mpr hstart)
  have hexponent : Generated ((var "n").sub (num 3)) :=
    .sub hn (hnum 3 (by decide)) (by decide +kernel)
  have hquotient : Generated (((var "x").pow ((var "n").sub (num 3))).div (num 2)) :=
    .div (.pow hx hexponent) (hnum 2 (by decide)) fun h =>
      absurd (congrArg asNum? h) (by decide +kernel)
  have hhalf : Generated ((num 1).div (num 2)) :=
    .div (hnum 1 (by decide)) (hnum 2 (by decide)) fun h =>
      absurd (congrArg asNum? h) (by decide +kernel)
  exact .sum (.add hquotient (.unknown hfragment) (by decide +kernel))
    ⟨'i', [], by decide, by decide, by decide⟩ (.min (.neg hn) (hnum 1 (by decide)))
    (.mul (.neg hhalf) hn (by decide +kernel))

/-- The hypothesis of `read?_text` can be met: `nestedCost` is read back from
`Sum(x**(n - 3)/2 + unknown(f(y)), (i, Min(-n, 1), -1/2*n))`. -/
theorem read?_text_nestedCost :
    Generated nestedCost ∧ read? nestedCost.text = some nestedCost :=
  ⟨generated_nestedCost, read?_text generated_nestedCost⟩

end CostAnalysis.Formula
