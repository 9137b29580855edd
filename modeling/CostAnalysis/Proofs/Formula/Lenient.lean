import CostAnalysis.Proofs.Formula.Locality
import CostAnalysis.Proofs.Formula.Pieces

/-!
# Lenient reading

A text that is no formula as a whole is cut at the plus signs outside of
parentheses, and what cannot be read of the trimmed pieces is kept as an opaque
term and listed.

**What is marked.**  A listed fragment is a trimmed piece that cannot be read,
and every such piece is listed (`mem_readLenient`).  No statement about the
reader is needed for that.

**What is not marked.**  If nothing is listed, all pieces can be read, but for
those that are blank: these are passed over.  Where there is none of them, the
pieces make up a text that can be read as a whole (`ReadsTerms.join`), since
what is read is read everywhere; so a repair without a mark is an empty piece.
That rests on trimming a piece of no more than the reader passes over: a piece
may be trimmed of any white space, and the reader knows only four blanks.
-/

namespace CostAnalysis.Formula

open Reader Text

variable {text piece front back : List Char} {e d : Formula}

/-! ## Fragments -/

/-- The pieces that are listed. -/
theorem snd_foldl_addPiece (pieces : List (List Char)) (state : Formula × List String) :
    (pieces.foldl addPiece state).2 = state.2 ++
      ((pieces.map trim).filter fun cs => cs ≠ [] ∧ ofChars? cs = none).map String.ofList := by
  induction pieces generalizing state with
  | nil => simp
  | cons piece pieces ih =>
      rw [List.foldl_cons, ih, List.map_cons]
      by_cases hempty : trim piece = []
      · simp [addPiece, hempty]
      · cases hread : ofChars? (trim piece) with
        | none => simp [addPiece, hempty, hread]
        | some e => simp [addPiece, hempty, hread]

/-- **A fragment is listed** if and only if it is a trimmed piece that cannot be
read. -/
theorem mem_readLenient {text : String} (h : read? text = none) (fragment : String) :
    fragment ∈ (readLenient text).2 ↔ ∃ piece, IsTopLevelPiece text.toList piece ∧
      trim piece ≠ [] ∧ fragment = String.ofList (trim piece) ∧ read? fragment = none := by
  rw [readLenient, h]
  simp only [snd_foldl_addPiece, List.nil_append, List.mem_map, List.mem_filter,
    decide_eq_true_eq]
  constructor
  · rintro ⟨_, ⟨⟨piece, hpiece, rfl⟩, hne, hread⟩, rfl⟩
    exact ⟨piece, mem_topLevelPieces_iff.mp hpiece, hne, rfl, by
      rwa [read?, String.toList_ofList]⟩
  · rintro ⟨piece, hpiece, hne, rfl, hread⟩
    rw [read?, String.toList_ofList] at hread
    exact ⟨trim piece, ⟨⟨piece, mem_topLevelPieces_iff.mpr hpiece, rfl⟩, hne, hread⟩, rfl⟩

/-! ## Joined pieces -/

/-- Two sums of terms are one with a plus sign between them, since the second is
read everywhere. -/
theorem ReadsTerms.join (hfront : ReadsTerms front d) (hback : ReadsTerms back e) :
    ∃ e, ReadsTerms (front ++ '+' :: back) e := by
  induction hback with
  | product h => exact ⟨_, hfront.piece (h.plus_piece isBlanks_nil isBlanks_nil)⟩
  | piece _ hd ih =>
      obtain ⟨e, he⟩ := ih
      exact ⟨_, by simpa using he.piece hd⟩

/-- What is trimmed stands between characters of the class. -/
theorem exists_trimWhile (p : Char → Bool) (text : List Char) :
    ∃ b b', (∀ c ∈ b, p c = true) ∧ (∀ c ∈ b', p c = true) ∧
      text = b ++ (trimWhile p text ++ b') := by
  refine ⟨text.takeWhile p, ((text.dropWhile p).reverse.takeWhile p).reverse,
    fun _ hc => List.mem_takeWhile_imp hc,
    fun _ hc => List.mem_takeWhile_imp (List.mem_reverse.mp hc), ?_⟩
  rw [trimWhile, dropRightWhile, ← List.reverse_append, List.takeWhile_append_dropWhile,
    List.reverse_reverse, List.takeWhile_append_dropWhile]

/-- A piece is read with the blanks around it. -/
theorem exists_readsTerms_of_trim (htrim : trim piece = trimWhile isSpace piece)
    (hread : (ofChars? (trim piece)).isSome) : ∃ e, ReadsTerms piece e := by
  obtain ⟨e, he⟩ := Option.isSome_iff_exists.mp hread
  obtain ⟨b, b', hb, hb', hpiece⟩ := exists_trimWhile isSpace piece
  rw [htrim] at he
  rw [hpiece]
  exact ⟨e, ((readsTerms_of_ofChars? he).append_blanks hb').blanks hb⟩

/-- **Pieces that can be read** make up a text that can be read. -/
theorem exists_readsTerms_of_pieces
    (h : ∀ piece, IsTopLevelPiece text piece → ∃ e, ReadsTerms piece e) :
    ∃ e, ReadsTerms text e := by
  induction text using pieces_induction with
  | whole text htext => exact h text (isTopLevelPiece_self htext)
  | plus front back hzero hfront ih =>
      obtain ⟨d, hd⟩ := h front (isTopLevelPiece_front hzero hfront)
      obtain ⟨e, he⟩ := ih fun piece hpiece => h piece (hpiece.behind hzero)
      exact hd.join he

/-! ## Marks

An empty piece is passed over, so that a text with such a piece is repaired
without a mark.  This is the one exception, and both directions of the
equivalence are about it. -/

/-- **Repairs are marked**, but for empty pieces.  A text that can be read is
read as it is.  Of any other, the trimmed pieces that cannot be read are listed,
each of them and nothing else; and where trimming takes no more off the pieces
than the reader passes over, nothing is listed only if some piece is blank and
all others can be read. -/
theorem readLenient_marks (text : String) :
    (∀ e, read? text = some e → readLenient text = (e, [])) ∧
      (read? text = none → ∀ fragment, fragment ∈ (readLenient text).2 ↔
        ∃ piece, IsTopLevelPiece text.toList piece ∧ trim piece ≠ [] ∧
          fragment = String.ofList (trim piece) ∧ read? fragment = none) ∧
      ((∀ piece, IsTopLevelPiece text.toList piece → trim piece = trimWhile isSpace piece) →
        ((readLenient text).2 = [] ↔ (read? text).isSome ∨
          (∃ piece, IsTopLevelPiece text.toList piece ∧ trim piece = []) ∧
            ∀ piece, IsTopLevelPiece text.toList piece → trim piece ≠ [] →
              (read? (String.ofList (trim piece))).isSome)) := by
  have hstrict : ∀ e, read? text = some e → readLenient text = (e, []) := by
    intro e he
    rw [readLenient, he]
  refine ⟨hstrict, mem_readLenient, fun htrim => ⟨fun hnil => ?_, ?_⟩⟩
  · by_cases hsome : (read? text).isSome
    · exact Or.inl hsome
    · have hnone : read? text = none := by simpa using hsome
      have hread : ∀ piece, IsTopLevelPiece text.toList piece → trim piece ≠ [] →
          (read? (String.ofList (trim piece))).isSome := by
        intro piece hpiece hne
        by_contra hfail
        have hmem := (mem_readLenient hnone (String.ofList (trim piece))).mpr
          ⟨piece, hpiece, hne, rfl, by simpa using hfail⟩
        rw [hnil] at hmem
        cases hmem
      refine Or.inr ⟨?_, hread⟩
      by_contra hblank
      -- without a blank piece the text can be read as a whole
      have hpieces : ∀ piece, IsTopLevelPiece text.toList piece → ∃ e, ReadsTerms piece e := by
        intro piece hpiece
        refine exists_readsTerms_of_trim (htrim piece hpiece) ?_
        have hsome := hread piece hpiece fun hempty => hblank ⟨piece, hpiece, hempty⟩
        rwa [read?, String.toList_ofList] at hsome
      obtain ⟨e, he⟩ := exists_readsTerms_of_pieces hpieces
      rw [he.readsSum.read?_eq] at hnone
      cases hnone
  · intro h
    by_cases hnone : read? text = none
    · refine List.eq_nil_iff_forall_not_mem.mpr fun fragment hmem => ?_
      obtain ⟨piece, hpiece, hne, rfl, hfail⟩ := (mem_readLenient hnone fragment).mp hmem
      rcases h with hsome | ⟨-, hread⟩
      · simp [hnone] at hsome
      · have hsome := hread piece hpiece hne
        simp [hfail] at hsome
    · obtain ⟨e, he⟩ := Option.ne_none_iff_exists'.mp hnone
      rw [hstrict e he]

/-- The hypotheses of `readLenient_marks` can be met: `n` is read as it is, and
of `n + f(n) + `, which cannot be read as a whole, the call of an unknown
function is listed. -/
theorem readLenient_marks_call :
    (read? "n" = some (var "n") ∧ readLenient "n" = (var "n", [])) ∧
      read? "n + f(n) + " = none ∧
      ((∃ piece, IsTopLevelPiece "n + f(n) + ".toList piece ∧ trim piece ≠ [] ∧
          "f(n)" = String.ofList (trim piece) ∧ read? "f(n)" = none) ∧
        "f(n)" ∈ (readLenient "n + f(n) + ").2) ∧
      (∀ piece, IsTopLevelPiece "n + f(n) + ".toList piece →
        trim piece = trimWhile isSpace piece) ∧
      (readLenient "n + f(n) + ").2 ≠ [] := by
  have hnone : read? "n + f(n) + " = none := by decide +kernel
  have hpieces : ∀ piece, IsTopLevelPiece "n + f(n) + ".toList piece →
      trim piece = trimWhile isSpace piece := by
    intro piece hpiece
    have hall : ∀ piece ∈ topLevelPieces 0 "n + f(n) + ".toList,
        trim piece = trimWhile isSpace piece := by
      decide +kernel
    exact hall piece (mem_topLevelPieces_iff.mpr hpiece)
  have hcall : IsTopLevelPiece "n + f(n) + ".toList " f(n) ".toList :=
    mem_topLevelPieces_iff.mp (by decide +kernel)
  have hfragment : ∃ piece, IsTopLevelPiece "n + f(n) + ".toList piece ∧ trim piece ≠ [] ∧
      "f(n)" = String.ofList (trim piece) ∧ read? "f(n)" = none :=
    ⟨_, hcall, by decide +kernel, by decide +kernel, by decide +kernel⟩
  have hread : read? "n" = some (var "n") :=
    (readsAtom_var ⟨'n', [], rfl, by decide, by decide⟩).readsPower.readsProduct.readsSum.read?_eq
  refine ⟨⟨hread, (readLenient_marks "n").1 _ hread⟩, hnone,
    ⟨hfragment, ((readLenient_marks _).2.1 hnone "f(n)").mpr hfragment⟩, hpieces, fun hnil => ?_⟩
  rcases ((readLenient_marks _).2.2 hpieces).mp hnil with hsome | ⟨-, hall⟩
  · rw [hnone] at hsome
    cases hsome
  · have hsome := hall _ hcall (by decide +kernel)
    revert hsome
    decide +kernel

/-- An empty piece is passed over without a mark. -/
theorem readLenient_marks_blank :
    ¬((readLenient "n + ").2 = [] ↔ (read? "n + ").isSome = true) := by
  decide +kernel

end CostAnalysis.Formula
