import CostAnalysis.Proofs.Cost.Attribution
import CostAnalysis.Proofs.Source.Positions
import CostAnalysis.Proofs.Source.Starts

/-!
# The texts of lines

A report shows for each line its text and the statements that are charged to it.
The number of the line comes from the tokens, whose line breaks are carriage
returns, line feeds and both together; the text comes from a division of the
source at its line feeds alone.  The two agree as long as no carriage return
stands alone before the end of the line (`CostReport.code_eq_lineAround`): then
the text is that of the line on which the statements start, without surrounding
blanks.

**The argument.**  Everything about the division follows from one equation at a
break (`Text.splitWhere_append_cons`): the piece around a place is the one whose
number is that of the breaks before the place (`Text.getElem?_splitWhere`).
Where each carriage return is followed by a line feed, that number is the number
of line breaks, and the piece is the line but for a carriage return at its end,
which is a blank.
-/

namespace CostAnalysis

/-! ## Pieces of a text

The text of a line is found by its number in the list of pieces, so the number
of a piece has to be said in terms of the text in front of it. -/

namespace Text

variable {p : Char → Bool}

/-- There is always a piece. -/
theorem splitWhere_ne_nil (text : List Char) : splitWhere p text ≠ [] := by
  cases text with
  | nil => exact List.cons_ne_nil _ _
  | cons c rest =>
      rw [splitWhere]
      split
      · exact List.cons_ne_nil _ _
      · split <;> exact List.cons_ne_nil _ _

/-- A break begins a new piece. -/
theorem splitWhere_cons_of_pos {c : Char} (hc : p c = true) (rest : List Char) :
    splitWhere p (c :: rest) = [] :: splitWhere p rest := by
  obtain ⟨piece, pieces, h⟩ := List.exists_cons_of_ne_nil (splitWhere_ne_nil (p := p) rest)
  rw [splitWhere, h]
  exact if_pos hc

/-- A character that is no break belongs to the first piece. -/
theorem splitWhere_cons_of_neg {c : Char} (hc : p c = false) (rest : List Char) :
    splitWhere p (c :: rest) = (splitWhere p rest).modifyHead (c :: ·) := by
  obtain ⟨piece, pieces, h⟩ := List.exists_cons_of_ne_nil (splitWhere_ne_nil (p := p) rest)
  rw [splitWhere, h]
  exact if_neg (Bool.eq_false_iff.mp hc)

/-- **The division at a break.** -/
theorem splitWhere_append_cons {c : Char} (hc : p c = true) (front rest : List Char) :
    splitWhere p (front ++ c :: rest) = splitWhere p front ++ splitWhere p rest := by
  induction front with
  | nil => exact splitWhere_cons_of_pos hc rest
  | cons d front ih =>
      rw [List.cons_append]
      cases hd : p d with
      | true => rw [splitWhere_cons_of_pos hd, splitWhere_cons_of_pos hd, ih, List.cons_append]
      | false =>
          obtain ⟨piece, pieces, h⟩ := List.exists_cons_of_ne_nil (splitWhere_ne_nil (p := p) front)
          rw [splitWhere_cons_of_neg hd, splitWhere_cons_of_neg hd, ih, h]
          rfl

/-- There is one piece more than there are breaks. -/
theorem length_splitWhere (text : List Char) :
    (splitWhere p text).length = text.countP p + 1 := by
  induction text with
  | nil => rfl
  | cons c rest ih =>
      cases hc : p c with
      | true => rw [splitWhere_cons_of_pos hc, List.length_cons, ih, List.countP_cons_of_pos hc]
      | false =>
          rw [splitWhere_cons_of_neg hc, List.length_modifyHead, ih,
            List.countP_cons_of_neg (Bool.eq_false_iff.mp hc)]

/-- The first piece ends at the first break. -/
theorem head?_splitWhere (text : List Char) :
    (splitWhere p text).head? = some (text.takeWhile fun c => !p c) := by
  induction text with
  | nil => rfl
  | cons c rest ih =>
      cases hc : p c with
      | true => rw [splitWhere_cons_of_pos hc, List.takeWhile_cons_of_neg (by simp [hc])]; rfl
      | false =>
          rw [splitWhere_cons_of_neg hc, List.head?_modifyHead, ih,
            List.takeWhile_cons_of_pos (by simp [hc])]
          rfl

/-- The piece around a place. -/
theorem getElem?_splitWhere (front rest : List Char) :
    (splitWhere p (front ++ rest))[front.countP p]? =
      some (front.rtakeWhile (fun c => !p c) ++ rest.takeWhile fun c => !p c) := by
  induction front using List.reverseRecOn generalizing rest with
  | nil => rw [List.nil_append, List.countP_nil, ← List.head?_eq_getElem?, head?_splitWhere]; rfl
  -- the last character before the place: a break makes the next piece the one
  -- around the place, and any other character lengthens it
  | append_singleton front c ih =>
      rw [List.append_assoc, List.singleton_append, List.countP_append]
      cases hc : p c with
      | true =>
          have hlength : (splitWhere p front).length = front.countP p + [c].countP p := by
            rw [length_splitWhere, List.countP_singleton, if_pos hc]
          rw [splitWhere_append_cons hc, ← hlength, List.getElem?_append_right le_rfl, Nat.sub_self,
            ← List.head?_eq_getElem?, head?_splitWhere,
            List.rtakeWhile_concat_neg _ _ _ (by simp [hc])]
          rfl
      | false =>
          rw [List.countP_singleton, hc, if_neg Bool.false_ne_true, Nat.add_zero, ih,
            List.takeWhile_cons_of_pos (by simp [hc]),
            List.rtakeWhile_concat_pos _ _ _ (by simp [hc]), List.append_assoc]
          rfl

/-- A blank at the end is trimmed. -/
theorem trim_concat {c : Char} (hc : isBlank c = true) (text : List Char) :
    trim (text ++ [c]) = trim text := by
  rw [trim, trimWhile, trim, trimWhile, List.dropWhile_append]
  split
  · next hall =>
      rw [List.isEmpty_iff.mp hall, List.dropWhile_cons_of_pos hc]
      rfl
  · rw [dropRightWhile, List.reverse_append, List.reverse_singleton, List.singleton_append,
      List.dropWhile_cons_of_pos hc]
    rfl

end Text

/-! ## Lines

Lines are divided twice, at line feeds for the texts and at all line breaks for
the numbers.  The lemmas compare the two around one place of a text in which no
carriage return stands alone. -/

namespace Lexer

/-- The line on which a place lies, without the line break at its end. -/
def lineAround (front after : List Char) : List Char :=
  front.rtakeWhile (fun c => !isLineEnd c) ++ after.takeWhile fun c => !isLineEnd c

/-- Each carriage return that something follows is followed by a line feed. -/
def ReturnsPaired (text : List Char) : Prop :=
  text.IsChain fun c d => c = '\r' → d = '\n'

instance (text : List Char) : Decidable (ReturnsPaired text) :=
  inferInstanceAs (Decidable (text.IsChain _))

/-- Up to the line feed after a place all carriage returns are paired. -/
abbrev PairedAround (front after : List Char) : Prop :=
  ReturnsPaired (front ++ (after.takeWhile (· != '\n') ++ ['\n']))

section Paired

variable {front after text : List Char}

/-- Carriage returns are paired in two texts together just if they are in each
of them, and none at the end of the first one has anything but a line feed
behind it. -/
theorem returnsPaired_append_iff : ReturnsPaired (front ++ after) ↔
    ReturnsPaired front ∧ ReturnsPaired after ∧
      ∀ c ∈ front.getLast?, ∀ d ∈ after.head?, c = '\r' → d = '\n' :=
  List.isChain_append

/-- Where carriage returns are paired, the line breaks are the line feeds. -/
theorem ReturnsPaired.breaksIn_eq (h : ReturnsPaired text) (hlast : text.getLast? ≠ some '\r') :
    breaksIn text = text.countP (· == '\n') := by
  fun_induction breaksIn text with
  | case1 => rfl
  -- a carriage return with its line feed is one break and has one line feed
  | case2 rest ih =>
      have hrest : ReturnsPaired rest := h.tail.tail
      rw [ih hrest fun hrest => hlast (by simp [List.getLast?_cons, hrest]),
        List.countP_cons_of_neg (by decide), List.countP_cons_of_pos (by decide)]
  | case3 c rest hother ih =>
      -- no carriage return stands alone
      have hc : c ≠ '\r' := by
        rintro rfl
        cases rest with
        | nil => exact hlast rfl
        | cons d rest =>
            obtain rfl : d = '\n' := (List.isChain_cons_cons.mp h).1 rfl
            exact hother rest rfl rfl
      have hcount : (if isLineEnd c then 1 else 0) = [c].countP (· == '\n') := by
        rw [List.countP_singleton, isLineEnd, beq_false_of_ne hc, Bool.false_or]
      rw [ih h.tail fun hrest => hlast (by simp [List.getLast?_cons, hrest]), hcount, Nat.add_comm,
        ← List.countP_append, List.singleton_append]

/-- Behind paired carriage returns the line begins after the last line feed. -/
theorem ReturnsPaired.rtakeWhile_eq (h : ReturnsPaired front) (hlast : front.getLast? ≠ some '\r') :
    front.rtakeWhile (fun c => !(c == '\n')) = front.rtakeWhile fun c => !isLineEnd c := by
  induction front using List.reverseRecOn with
  | nil => rfl
  | append_singleton front c ih =>
      have hc : c ≠ '\r' := fun hc => hlast (by rw [hc, List.getLast?_concat])
      -- without carriage returns a line ends at a line feed only
      have hend : isLineEnd c = (c == '\n') := by
        rw [isLineEnd, beq_false_of_ne hc, Bool.false_or]
      cases hfeed : c == '\n' with
      | true =>
          rw [List.rtakeWhile_concat_neg _ _ _ (by simp [hfeed]),
            List.rtakeWhile_concat_neg _ _ _ (by simp [hend, hfeed])]
      | false =>
          obtain ⟨hfront, -, hjoin⟩ := returnsPaired_append_iff.mp h
          have hlastFront : front.getLast? ≠ some '\r' := fun hreturn =>
            ne_of_beq_false hfeed (hjoin '\r' hreturn c rfl rfl)
          rw [List.rtakeWhile_concat_pos _ _ _ (by simp [hfeed]),
            List.rtakeWhile_concat_pos _ _ _ (by simp [hend, hfeed]), ih hfront hlastFront]

/-- Before paired carriage returns a line ends at the next line feed, but for a
carriage return. -/
theorem ReturnsPaired.takeWhile_eq (h : ReturnsPaired (after.takeWhile (· != '\n') ++ ['\n'])) :
    ∃ ending, (ending = [] ∨ ending = ['\r']) ∧
      after.takeWhile (· != '\n') = after.takeWhile (fun c => !isLineEnd c) ++ ending := by
  induction after with
  | nil => exact ⟨[], .inl rfl, rfl⟩
  | cons c rest ih =>
      by_cases hfeed : c = '\n'
      · exact ⟨[], .inl rfl, by simp [hfeed, isLineEnd]⟩
      rw [List.takeWhile_cons_of_pos (by simpa using hfeed)] at h ⊢
      by_cases hreturn : c = '\r'
      · refine ⟨['\r'], .inr rfl, ?_⟩
        -- what follows is a line feed, so that nothing more is taken
        have hrest : rest.takeWhile (· != '\n') = [] := by
          cases hrest : rest.takeWhile (· != '\n') with
          | nil => rfl
          | cons d ds =>
              rw [hrest] at h
              have hd : (d != '\n') = true :=
                List.mem_takeWhile_imp (p := (· != '\n')) (l := rest) (by rw [hrest]; simp)
              exact absurd ((List.isChain_cons_cons.mp h).1 hreturn) (by simpa using hd)
        rw [hrest, hreturn, List.takeWhile_cons_of_neg (by decide)]
        rfl
      · obtain ⟨ending, hending, htake⟩ := ih h.tail
        have hend : isLineEnd c = false := by simp [isLineEnd, hfeed, hreturn]
        refine ⟨ending, hending, ?_⟩
        rw [htake, List.takeWhile_cons_of_pos (by simp [hend]), List.cons_append]

/-- **Both ways of counting lines agree** at a place around which carriage
returns are paired. -/
theorem codeOf_behind (hapart : Apart front after) (hafter : after ≠ [])
    (h : PairedAround front after) {source : String} (hsource : source.toList = front ++ after) :
    LineCost.codeOf (LineCost.sourceLines source) (Position.behind front).line =
      String.ofList (Text.trim (lineAround front after)) := by
  obtain ⟨hfront, hrest, hjoin⟩ := returnsPaired_append_iff.mp h
  have hlast : front.getLast? ≠ some '\r' := by
    intro hreturn
    refine hapart hreturn ?_
    obtain ⟨c, rest, rfl⟩ := List.exists_cons_of_ne_nil hafter
    by_contra hc
    rw [List.takeWhile_cons_of_pos (by simpa using hc)] at hjoin
    exact hc (congrArg some (hjoin '\r' hreturn c rfl rfl))
  -- the piece with the number of the line is the one around the place
  have hpiece : (LineCost.sourceLines source)[(Position.behind front).line - 1]? =
      some (front.rtakeWhile (fun c => !(c == '\n')) ++ after.takeWhile (· != '\n')) := by
    rw [Position.behind, Nat.add_sub_cancel_left, hfront.breaksIn_eq hlast, LineCost.sourceLines,
      hsource]
    exact Text.getElem?_splitWhere front after
  obtain ⟨ending, hending, htake⟩ := hrest.takeWhile_eq
  rw [LineCost.codeOf, hpiece, hfront.rtakeWhile_eq hlast, htake, ← List.append_assoc]
  refine congrArg String.ofList ?_
  -- it may have a carriage return at its end, which is trimmed
  rcases hending with rfl | rfl
  · rw [List.append_nil, lineAround]
  · exact Text.trim_concat (by decide) _

/-- It is enough that the carriage returns of the whole text are paired. -/
theorem ReturnsPaired.around (h : ReturnsPaired (front ++ after ++ ['\n'])) :
    PairedAround front after := by
  refine h.prefix ?_
  rw [List.append_assoc, List.prefix_append_right_inj]
  rcases hrest : after.dropWhile (· != '\n') with _ | ⟨c, rest⟩
  · have htake := List.takeWhile_append_dropWhile (p := (· != '\n')) (l := after)
    rw [hrest, List.append_nil] at htake
    rw [htake]
  · have hc : c = '\n' := by
      have hhead := List.head?_dropWhile_not (· != '\n') after
      rw [hrest] at hhead
      simpa using hhead
    refine ⟨rest ++ ['\n'], ?_⟩
    conv_rhs => rw [← List.takeWhile_append_dropWhile (p := (· != '\n')) (l := after), hrest, hc]
    simp

end Paired

/-- A place in a text is known by its offset. -/
theorem append_inj_of_bytes {front front' after after' : List Char}
    (h : front ++ after = front' ++ after') (hbytes : bytes front = bytes front') :
    front = front' ∧ after = after' := by
  have hnil : ∀ {text more : List Char}, bytes (text ++ more) = bytes text → more = [] := by
    intro text more hmore
    by_contra hne
    have hpos := bytes_pos hne
    rw [bytes_append] at hmore
    omega
  rcases List.append_eq_append_iff.mp h with ⟨more, rfl, rfl⟩ | ⟨more, rfl, rfl⟩
  · obtain rfl := hnil hbytes.symm
    simp
  · obtain rfl := hnil hbytes
    simp

/-- Only the mark of the end has no text. -/
theorem text_ne_nil_of_tokensFrom {position : Position} {cs : List Char} {tokens : List Token}
    (h : tokensFrom position cs = .ok tokens) :
    ∀ t ∈ tokens, t.kind ≠ .endOfInput → t.text.toList ≠ [] := by
  refine tokensFrom_induction (P := fun _ _ tokens => ∀ t ∈ tokens, t.kind ≠ .endOfInput →
    t.text.toList ≠ []) (fun position => by simp) ?_ ?_ h
  · intro position kind text after tokens _ htext ih
    refine List.forall_mem_cons.mpr ⟨fun _ => ?_, ih⟩
    rwa [String.toList_ofList]
  · intro position lexeme run after tokens _ _ ih
    exact ih

end Lexer

/-! ## Places of statements

A statement only remembers the number of the line on which it starts.  That this
is the line of a token at a known place of the text is carried over from the
reader, which took it from that token.
-/

/-- The statement starts at a place of the source: there stands the token at
which it was read. -/
def Stmt.StartsAt (source : String) (front after : List Char) (st : Stmt) : Prop :=
  source.toList = front ++ after ∧ ∃ tokens n t, tokenize source = .ok tokens ∧
    st.ReadAt tokens n ∧ tokens[n]? = some t ∧ t.text.toList <+: after ∧
    t.position.offset = Lexer.bytes front

/-- No literal of the source spans lines. -/
def LiteralsOnLines (source : String) : Prop :=
  ∀ tokens, tokenize source = .ok tokens → ∀ t ∈ tokens, t.kind = .stringLiteral →
    ∀ c ∈ t.text.toList, Lexer.isLineEnd c = false

section Places

variable {source : String} (hmark : stripMark source.toList = source.toList)
include hmark

/-- A statement that was read at a token starts at a place of the source, as the
token is a part of it. -/
theorem Stmt.ReadAt.exists_startsAt {tokens : List Token} {n : ℕ} {st : Stmt}
    (h : st.ReadAt tokens n) (htokens : tokenize source = .ok tokens) :
    ∃ front after, st.StartsAt source front after := by
  obtain ⟨t, ht, -, -⟩ := h.first?_lines htokens
  obtain ⟨before, later, rfl⟩ := List.mem_iff_append.mp (List.mem_of_getElem? ht)
  obtain ⟨front, after, hsource, -, htracks⟩ := Lexer.tracks_of_tokenize htokens
  rw [hmark] at hsource
  exact ⟨front, _, hsource, _, n, t, htokens, h, ht, List.prefix_append _ _, htracks.offset⟩

/-- The line on which a statement starts is that of its place. -/
theorem Stmt.StartsAt.first?_lines (hliterals : LiteralsOnLines source) {front after : List Char}
    {st : Stmt} (h : st.StartsAt source front after) :
    st.lines.first? = some (Position.behind front).line ∧ Lexer.Apart front after ∧ after ≠ [] := by
  obtain ⟨hsource, tokens, n, t, htokens, hread, ht, -, hoffset⟩ := h
  obtain ⟨u, hu, hkind, hfirst⟩ := hread.first?_lines htokens
  obtain rfl := Option.some.inj (hu.symm.trans ht)
  have hmem := List.mem_of_getElem? ht
  obtain ⟨before, later, rfl⟩ := List.mem_iff_append.mp hmem
  obtain ⟨front', after', htext, hapart, htracks⟩ := Lexer.tracks_of_tokenize htokens
  rw [hmark, hsource] at htext
  obtain ⟨rfl, rfl⟩ := Lexer.append_inj_of_bytes htext (hoffset.symm.trans htracks.offset)
  have hcounted : Lexer.breaksInTokens before = 0 :=
    (Lexer.breaksInTokens_eq_zero_iff htokens).mpr fun v hv =>
      hliterals _ htokens v (List.mem_append_left _ hv)
  refine ⟨?_, hapart, ?_⟩
  · rw [hfirst, Token.line, htracks.eq_behind_iff.mpr hcounted]
  · exact List.append_ne_nil_of_left_ne_nil
      (Lexer.text_ne_nil_of_tokensFrom htokens u hmem hkind) _

end Places

/-! ## Entries of lines

The table of lines is built by one write for each statement.  What holds of it
after every write is `LineCost.Lists`: its entries stand in the order of their
lines and list the kinds of just those statements that were charged so far. -/

namespace Program

/-- All statements of a program, in the order in which they are written. -/
def statements (p : Program) : List Stmt :=
  p.functions.flatMap fun f => Stmt.preorderAll f.body

/-- The statements that start on a line. -/
def statementsOn (p : Program) (number : ℕ) : List Stmt :=
  p.statements.filter fun st => st.lines.first? = some number

/-- The entries of a program are those of its procedures, in their order. -/
theorem nodes_snd (rules : CostRules) (p : Program) :
    (p.nodes rules).2 = p.functions.flatMap fun f => (f.nodes rules).2 := by
  obtain ⟨fs⟩ := p
  have hfold : ∀ (total : Cost) (before : List NodeCost),
      (fs.foldl (fun sofar f => (sofar.1.add (f.nodes rules).1, sofar.2 ++ (f.nodes rules).2))
        (total, before)).2 = before ++ fs.flatMap fun f => (f.nodes rules).2 := by
    induction fs with
    | nil => exact fun total before => (List.append_nil _).symm
    | cons f fs ih =>
        intro total before
        rw [List.foldl_cons, ih, List.append_assoc, List.flatMap_cons]
  exact hfold Cost.zero []

/-- There is one entry for each statement of a program. -/
theorem map_head_nodes (rules : CostRules) (p : Program) :
    (p.nodes rules).2.map (fun n => (n.lines, n.typeName)) =
      p.statements.map fun st => (st.lines, st.typeName) := by
  rw [nodes_snd, statements, List.map_flatMap, List.map_flatMap]
  exact List.flatMap_congr fun f _ => Stmt.map_head_entries rules f.body _

end Program

namespace LineCost

/-- The kinds of the statements that are charged to a line. -/
def kindsOn (number : ℕ) (nodes : List NodeCost) : List String :=
  (nodes.filter fun n => n.lines.first? = some number).map NodeCost.typeName

section Kinds

variable {number : ℕ} {nodes : List NodeCost} {n : NodeCost}

/-- A statement that starts on the line adds its kind. -/
theorem kindsOn_concat_of_eq (h : n.lines.first? = some number) :
    kindsOn number (nodes ++ [n]) = kindsOn number nodes ++ [n.typeName] := by
  rw [kindsOn, List.filter_append, List.filter_cons_of_pos (by simpa using h), List.map_append]
  rfl

/-- A statement that starts on another line adds nothing. -/
theorem kindsOn_concat_of_ne (h : n.lines.first? ≠ some number) :
    kindsOn number (nodes ++ [n]) = kindsOn number nodes := by
  rw [kindsOn, List.filter_append, List.filter_cons_of_neg (by simpa using h), List.filter_nil,
    List.append_nil]
  rfl

end Kinds

/-- The entry of a line has its text and the kinds of the statements that are
charged to it. -/
structure Describes (lines : List (List Char)) (nodes : List NodeCost) (number : ℕ)
    (entry : LineCost) : Prop where
  number_eq : entry.number = number
  code_eq : entry.code = codeOf lines number
  operations_eq : entry.operations = kindsOn number nodes
  operations_ne : entry.operations ≠ []

/-- The table has entries for the lines to which statements are charged, in
order. -/
structure Lists (lines : List (List Char)) (nodes : List NodeCost)
    (table : List (ℕ × LineCost)) : Prop where
  sorted : Assoc.Sorted table
  none : ∀ {number}, Assoc.find? number table = none → kindsOn number nodes = []
  some : ∀ {number entry}, Assoc.find? number table = some entry →
    entry.Describes lines nodes number

variable {lines : List (List Char)} {nodes : List NodeCost} {table : List (ℕ × LineCost)}

/-- An entry does not depend on what is charged to other lines. -/
theorem Describes.congr {nodes' : List NodeCost} {number : ℕ} {entry : LineCost}
    (h : entry.Describes lines nodes number)
    (hkinds : kindsOn number nodes' = kindsOn number nodes) :
    entry.Describes lines nodes' number where
  number_eq := h.number_eq
  code_eq := h.code_eq
  operations_eq := h.operations_eq.trans hkinds.symm
  operations_ne := h.operations_ne

/-- The entry of a line to which one more statement is charged. -/
theorem Lists.describes_charged (h : Lists lines nodes table) {n : NodeCost} {number : ℕ}
    (hfirst : n.lines.first? = .some number) (charge : Cost) :
    let entry := (Assoc.find? number table).getD ⟨number, codeOf lines number, [], Cost.zero⟩
    Describes lines (nodes ++ [n]) number
      { entry with
        cost := entry.cost.add charge
        operations := entry.operations ++ [n.typeName] } := by
  cases hold : Assoc.find? number table with
  | none =>
      refine ⟨rfl, rfl, ?_, List.cons_ne_nil _ _⟩
      rw [kindsOn_concat_of_eq hfirst, h.none hold]
      rfl
  | some old =>
      obtain ⟨hnumber, hcode, hoperations, -⟩ := h.some hold
      refine ⟨hnumber, hcode, ?_, List.concat_ne_nil _ _⟩
      rw [kindsOn_concat_of_eq hfirst, ← hoperations]
      rfl

/-- **One charge** adds the kind of its statement to its line. -/
theorem Lists.recordNode (h : Lists lines nodes table) (probability : Scalar) (n : NodeCost) :
    Lists lines (nodes ++ [n]) (recordNode probability lines table n) := by
  cases hfirst : n.lines.first? with
  | none =>
      have hkinds : ∀ number, kindsOn number (nodes ++ [n]) = kindsOn number nodes := fun number =>
        kindsOn_concat_of_ne (by simp [hfirst])
      rw [LineCost.recordNode, hfirst]
      exact ⟨h.sorted, fun hnone => (hkinds _).trans (h.none hnone),
        fun hsome => (h.some hsome).congr (hkinds _)⟩
  | some first =>
      have hkinds : ∀ {number}, first ≠ number →
          kindsOn number (nodes ++ [n]) = kindsOn number nodes := fun hne =>
        kindsOn_concat_of_ne (by simpa [hfirst] using hne)
      rw [LineCost.recordNode, hfirst]
      show Lists lines (nodes ++ [n]) (record lines n.typeName (n.charged probability) first table)
      refine ⟨Assoc.linearOn_nat.sorted_alter (by simp) h.sorted trivial _,
        fun {number} hnone => ?_, fun {number entry} hsome => ?_⟩
      -- the entry of the line itself changes, and no other one does
      · by_cases hne : first = number
        · rw [hne, record, Assoc.linearOn_nat.find?_alter_self (by simp) h.sorted trivial] at hnone
          cases hnone
        · rw [record, Assoc.linearOn_nat.find?_alter_of_ne hne] at hnone
          rw [hkinds hne, h.none hnone]
      · by_cases hne : first = number
        · subst hne
          rw [record, Assoc.linearOn_nat.find?_alter_self (by simp) h.sorted trivial] at hsome
          rw [← Option.some.inj hsome]
          exact h.describes_charged hfirst (n.charged probability)
        · rw [record, Assoc.linearOn_nat.find?_alter_of_ne hne] at hsome
          exact (h.some hsome).congr (hkinds hne)

/-- **All charges**: the table of the lines of a text. -/
theorem lists_foldl (probability : Scalar) (lines : List (List Char)) (nodes : List NodeCost) :
    Lists lines nodes (nodes.foldl (recordNode probability lines) []) := by
  have hfold : ∀ done table, Lists lines done table →
      Lists lines (done ++ nodes) (nodes.foldl (recordNode probability lines) table) := by
    induction nodes with
    | nil => exact fun done table h => by rwa [List.append_nil]
    | cons n nodes ih =>
        intro done table h
        have hnext := ih (done ++ [n]) _ (h.recordNode probability n)
        rwa [List.append_assoc, List.singleton_append] at hnext
  exact hfold [] [] ⟨.nil, fun _ => rfl, nofun⟩

/-- An entry of a table is known by its line. -/
theorem Lists.describes_of_mem (h : Lists lines nodes table) {number : ℕ} {entry : LineCost}
    (hmem : (number, entry) ∈ table) : entry.Describes lines nodes number :=
  h.some ((Assoc.linearOn_nat.find?_eq_some_iff (by simp) h.sorted trivial).mpr hmem)

/-- Each entry of the table has the text of its line and the kinds that are
charged to it. -/
theorem describes_of_mem_ofNodes {probability : Scalar} {source : String} {entry : LineCost}
    (h : entry ∈ ofNodes probability source nodes) :
    entry.Describes (sourceLines source) nodes entry.number := by
  obtain ⟨⟨number, entry⟩, hmem, rfl⟩ := List.mem_map.mp h
  have hdescribes := (lists_foldl probability (sourceLines source) nodes).describes_of_mem hmem
  rwa [← hdescribes.number_eq] at hdescribes

/-- The kinds that are charged to a line are those of the statements that start
on it. -/
theorem kindsOn_nodes (rules : CostRules) (p : Program) (number : ℕ) :
    kindsOn number (p.nodes rules).2 = (p.statementsOn number).map Stmt.typeName := by
  have hheads : ∀ {α : Type} (f : α → LineSpan × String) (l : List α),
      ((l.filter fun a => (f a).1.first? = some number).map fun a => (f a).2) =
        ((l.map f).filter fun head => head.1.first? = some number).map Prod.snd := by
    intro α f l
    rw [List.filter_map, List.map_map]
    rfl
  rw [kindsOn, Program.statementsOn, hheads fun n : NodeCost => (n.lines, n.typeName),
    hheads fun st : Stmt => (st.lines, st.typeName), Program.map_head_nodes]

end LineCost

namespace CostReport

/-- **The text of a line is that of its statements.**  Unless literals span
lines, the statements of an entry start on one line, and the text of the entry
is that line without surrounding blanks, if no carriage return stands alone
before its end. -/
theorem code_eq_lineAround {source : String} {p : Program} (hp : Program.parse source = .ok p)
    (hmark : stripMark source.toList = source.toList) (hliterals : LiteralsOnLines source)
    (rules : CostRules) :
    ∀ line ∈ (ofProgram rules p source).lines,
      line.operations ≠ [] ∧ line.operations = (p.statementsOn line.number).map Stmt.typeName ∧
      ∀ st ∈ p.statementsOn line.number,
        (∃ front after, st.StartsAt source front after) ∧
        ∀ front after, st.StartsAt source front after → Lexer.PairedAround front after →
          line.code = String.ofList (Text.trim (Lexer.lineAround front after)) := by
  intro line hline
  obtain ⟨-, hcode, hoperations, hne⟩ := LineCost.describes_of_mem_ofNodes hline
  refine ⟨hne, hoperations.trans (LineCost.kindsOn_nodes rules p line.number), fun st hst => ?_⟩
  obtain ⟨hstatement, hnumber⟩ := List.mem_filter.mp hst
  obtain ⟨f, hf, hbody⟩ := List.mem_flatMap.mp hstatement
  obtain ⟨t, ts, c, htokens, -⟩ := Program.exists_run_of_parse hp
  obtain ⟨n, hread⟩ := Program.readAt_of_parse hp htokens f hf st hbody
  refine ⟨hread.exists_startsAt hmark htokens, fun front after hstart hpaired => ?_⟩
  obtain ⟨hfirst, hapart, hafter⟩ := hstart.first?_lines hmark hliterals
  have hline : line.number = (Position.behind front).line := by
    have hsome := (of_decide_eq_true hnumber).symm.trans hfirst
    exact Option.some.inj hsome
  rw [hcode, hline]
  exact Lexer.codeOf_behind hapart hafter hpaired hstart.1

/-- Lines that end in both ways. -/
def mixedSource : String :=
  "f(n) begin\r\n  for i 🡨 1 to n do begin x 🡨 i \r\n\tend\n  return x\nend"

/-- Where lines end in both ways each statement stands on the line that is shown
for it. -/
theorem code_eq_lineAround_mixedSource :
    ∃ p, Program.parse mixedSource = .ok p ∧
      (ofProgram strictRules p mixedSource).lines.map (fun line => (line.code, line.operations)) =
        [("for i 🡨 1 to n do begin x 🡨 i", ["For", "Assign"]), ("return x", ["Return"])] ∧
      ∀ line ∈ (ofProgram strictRules p mixedSource).lines, ∀ st ∈ p.statementsOn line.number,
        ∃ front after, st.StartsAt mixedSource front after ∧
          line.code = String.ofList (Text.trim (Lexer.lineAround front after)) := by
  have hlines : (Program.parse mixedSource).toOption.map (fun p =>
      (ofProgram strictRules p mixedSource).lines.map fun line => (line.code, line.operations)) =
      some [("for i 🡨 1 to n do begin x 🡨 i", ["For", "Assign"]), ("return x", ["Return"])] := by
    decide +kernel
  have hliterals : LiteralsOnLines mixedSource := by
    have hkinds : (tokenize mixedSource).toOption.map (fun tokens =>
        tokens.all fun t => t.kind != .stringLiteral) = some true := by
      decide +kernel
    intro tokens htokens t ht hkind
    rw [htokens] at hkinds
    have hne := List.all_eq_true.mp (Option.some.inj hkinds) t ht
    rw [hkind] at hne
    cases hne
  have hpaired : Lexer.ReturnsPaired (mixedSource.toList ++ ['\n']) := by decide +kernel
  cases hparse : Program.parse mixedSource with
  | error e =>
      rw [hparse] at hlines
      cases hlines
  | ok p =>
      rw [hparse] at hlines
      refine ⟨p, rfl, Option.some.inj hlines, fun line hline st hst => ?_⟩
      obtain ⟨-, -, hall⟩ :=
        code_eq_lineAround hparse (by decide +kernel) hliterals strictRules line hline
      obtain ⟨⟨front, after, hstart⟩, htext⟩ := hall st hst
      refine ⟨front, after, hstart, htext front after hstart (.around ?_)⟩
      rw [← hstart.1]
      exact hpaired

/-- Lines that a carriage return alone ends. -/
def returnedSource : String :=
  "f(n) begin\rx 🡨 1\rend"

/-- What is written on the second line. -/
def returnedStatement : Stmt :=
  .assign (.lines 2 2) (.var "x") (.int 1)

/-- A statement behind a carriage return that stands alone: its line is counted
by the tokens, but the text is not divided there, so that no text is shown. -/
theorem code_eq_lineAround_returnedSource :
    ∃ p line, Program.parse returnedSource = .ok p ∧
      line ∈ (ofProgram strictRules p returnedSource).lines ∧
      returnedStatement ∈ p.statementsOn line.number ∧
      returnedStatement.StartsAt returnedSource "f(n) begin\r".toList "x 🡨 1\rend".toList ∧
      line.code = "" ∧
      Text.trim (Lexer.lineAround "f(n) begin\r".toList "x 🡨 1\rend".toList) =
        "x 🡨 1".toList := by
  have htokens : (tokenize returnedSource).toOption = some [⟨.identifier, "f", ⟨1, 1, 0⟩⟩,
      ⟨.leftParen, "(", ⟨1, 2, 1⟩⟩, ⟨.identifier, "n", ⟨1, 3, 2⟩⟩, ⟨.rightParen, ")", ⟨1, 4, 3⟩⟩,
      ⟨.beginWord, "begin", ⟨1, 6, 5⟩⟩, ⟨.identifier, "x", ⟨2, 1, 11⟩⟩,
      ⟨.assign, "🡨", ⟨2, 3, 13⟩⟩, ⟨.numberLiteral, "1", ⟨2, 5, 18⟩⟩, ⟨.endWord, "end", ⟨3, 1, 20⟩⟩,
      ⟨.endOfInput, "", ⟨3, 4, 23⟩⟩] := by
    decide +kernel
  cases hread : tokenize returnedSource with
  | error e =>
      rw [hread] at htokens
      cases htokens
  | ok tokens =>
      rw [hread] at htokens
      cases Option.some.inj htokens
      have hparse : Program.parse returnedSource =
          .ok ⟨[⟨"f", [⟨"n", false⟩], [returnedStatement], .lines 1 3⟩]⟩ := by
        rw [Program.parse, hread]
        rfl
      have hstart : returnedStatement.StartsAt returnedSource "f(n) begin\r".toList
          "x 🡨 1\rend".toList := by
        refine ⟨by decide +kernel, _, 5, ⟨.identifier, "x", ⟨2, 1, 11⟩⟩, hread, ?_, rfl,
          by decide +kernel, by decide +kernel⟩
        exact ⟨_, _, 1, _, rfl, by decide, rfl⟩
      exact ⟨_, ⟨2, "", ["Assign"], _⟩, hparse, List.mem_singleton.mpr rfl,
        List.mem_singleton.mpr rfl, hstart, rfl, by decide +kernel⟩

end CostReport

end CostAnalysis
