import CostAnalysis.Proofs.Recurrence.Addends
import CostAnalysis.Recurrence.Solution

/-!
# When the solution of a text is exact

A text is read as a recurrence, classified and solved, and each of the three
steps can record a note: a text that is no recurrence is replaced by
`2T(n/2) + f(n)`, so are terms that belong to no class, and work of unknown
growth is kept verbatim.

The second step never fails behind the first one.  What is read has a term, and
its terms are of one kind (`WrittenRecurrence.exists_classify`), which is all
that a class asks for (`RecurrenceClass.exists_classify_iff`).  The assumed
terms have a class too.  So a solution without notes is one of a text that was
read, with work that is known (`RecurrenceSolution.confidence_ofText`).

**A log only grows.**  Notes are recorded along the way and never taken back, so
that a solution is exact if and only if none was recorded at all
(`confidence_eq_exact_iff`).  The rest is which of the three steps records one.
-/

namespace CostAnalysis

/-! ## Terms that belong to a class -/

namespace RecurrenceClass

/-- **Terms belong to a class** exactly if there are some and all of them are of
one kind. -/
theorem exists_classify_iff {terms : List RecursiveTerm} :
    (∃ c, classify terms = .ok c) ↔ ∃ t ∈ terms, ∀ u ∈ terms, u.kind = t.kind := by
  cases terms with
  | nil => simp [classify]
  | cons t ts =>
      have hmixed : (ts.any fun u => u.kind != t.kind) = true ↔ ∃ u ∈ ts, u.kind ≠ t.kind := by
        simp [List.any_eq_true]
      constructor
      · rintro ⟨c, hc⟩
        refine ⟨t, List.mem_cons_self, List.forall_mem_cons.mpr ⟨rfl, fun u hu => ?_⟩⟩
        by_contra hne
        unfold classify at hc
        dsimp only at hc
        rw [if_pos (hmixed.mpr ⟨u, hu, hne⟩)] at hc
        cases hc
      · rintro ⟨t', -, hkind⟩
        obtain ⟨hfirst, hrest⟩ := List.forall_mem_cons.mp hkind
        have hsame : ¬ (ts.any fun u => u.kind != t.kind) = true := by
          rw [hmixed]
          rintro ⟨u, hu, hne⟩
          exact hne ((hrest u hu).trans hfirst.symm)
        unfold classify
        dsimp only
        rw [if_neg hsame]
        split <;> exact ⟨_, rfl⟩

end RecurrenceClass

/-- **What is read belongs to a class.** -/
theorem WrittenRecurrence.exists_classify {text : String} {w : WrittenRecurrence}
    (h : read text = .ok w) : ∃ c, RecurrenceClass.classify w.terms = .ok c := by
  obtain ⟨found, -, h⟩ := exists_of_bind_eq_ok h
  simp only at h
  split at h
  · cases h
  · next t ts hterms =>
    split at h
    · cases h
    · next hkinds =>
      split at h
      · cases h
      · obtain rfl := Except.ok.inj h
        rw [RecurrenceClass.exists_classify_iff, hterms]
        refine ⟨t, List.mem_cons_self, List.forall_mem_cons.mpr ⟨rfl, fun u hu => ?_⟩⟩
        simpa using fun hne => hkinds (List.any_eq_true.mpr ⟨u, hu, bne_iff_ne.mpr hne⟩)

/-! ## Notes -/

namespace Note

/-- A recorded note stands in the log. -/
theorem mem_record_self (log : List Note) (note : Note) : note ∈ record log note := by
  rw [record]
  split
  · next h => exact List.contains_iff_mem.mp h
  · exact List.mem_append_right _ (List.mem_singleton_self note)

/-- Recording keeps what the log has. -/
theorem mem_record_of_mem {log : List Note} {note : Note} (added : Note) (h : note ∈ log) :
    note ∈ record log added := by
  rw [record]
  split
  · exact h
  · exact List.mem_append_left _ h

/-- A note that was recorded is not lost. -/
theorem mem_recordAll_of_mem {log : List Note} {note : Note} (added : List Note) (h : note ∈ log) :
    note ∈ recordAll log added := by
  induction added generalizing log with
  | nil => exact h
  | cons first rest ih => exact ih (mem_record_of_mem first h)

/-- A log has every note of its sequence. -/
theorem mem_recordAll (log : List Note) {note : Note} {notes : List Note} (h : note ∈ notes) :
    note ∈ recordAll log notes := by
  induction notes generalizing log with
  | nil => cases h
  | cons first rest ih =>
      rcases List.mem_cons.mp h with rfl | h
      · exact mem_recordAll_of_mem rest (mem_record_self log note)
      · exact ih (record log first) h

end Note

namespace RecurrenceSolution

/-- A solution is exact just if no note was recorded. -/
theorem confidence_eq_exact_iff {s : RecurrenceSolution} :
    s.confidence = .exact ↔ s.notes = [] := by
  rw [confidence, Note.confidence, ← List.isEmpty_iff]
  split <;> simp_all

variable (settings : RecurrenceSettings)

/-- A solution is one of the recurrence that it was made from. -/
@[simp] theorem recurrence_ofRecurrence (raw : String) (notes : List Note) (r : Recurrence) :
    (ofRecurrence settings raw notes r).recurrence = r := rfl

/-- Solving keeps the notes, and adds one if the work is unknown. -/
theorem notes_ofRecurrence_eq_nil_iff {raw : String} {notes : List Note} {r : Recurrence} :
    (ofRecurrence settings raw notes r).notes = [] ↔ notes = [] ∧ r.work.known = true := by
  show (if r.work.known then notes else Note.record notes _) = [] ↔ _
  by_cases hknown : r.work.known = true
  · rw [if_pos hknown]
    simp [hknown]
  · rw [if_neg hknown]
    simp [hknown, List.ne_nil_of_mem (Note.mem_record_self notes _)]

/-- Solving records notes, and removes none. -/
theorem mem_notes_ofRecurrence {raw : String} {notes : List Note} {r : Recurrence} {note : Note}
    (h : note ∈ notes) : note ∈ (ofRecurrence settings raw notes r).notes := by
  show note ∈ (if r.work.known then notes else Note.record notes _)
  split
  · exact h
  · exact Note.mem_record_of_mem _ h

/-- Terms with a class are solved as they are. -/
theorem ofTerms_eq {terms : List RecursiveTerm} {c : RecurrenceClass}
    (h : RecurrenceClass.classify terms = .ok c) (raw : String) (work : Work) (notes : List Note) :
    ofTerms settings raw terms work notes =
      ofRecurrence settings raw notes { kind := c, terms, work } := by
  rw [ofTerms, h]

/-- A text that is read and has a class is solved as what was read, without a
note so far. -/
theorem ofText_of_read {text : String} {w : WrittenRecurrence} {c : RecurrenceClass}
    (h : WrittenRecurrence.read text = .ok w) (hc : RecurrenceClass.classify w.terms = .ok c) :
    ofText settings text =
      ofRecurrence settings (Text.trimString text) []
        { kind := c, terms := w.terms, work := w.work } := by
  rw [ofText, h]
  exact ofTerms_eq settings hc _ _ _

/-- A text that is no recurrence is solved with the assumed terms. -/
theorem ofText_of_fault {text : String} {fault : RecurrenceFault}
    (h : WrittenRecurrence.read text = .error fault) :
    ofText settings text =
      ofRecurrence settings (Text.trimString text) [assumptionNote fault.reason]
        { kind := .equalDivision
          terms := assumedTerms
          work := WrittenRecurrence.salvagedWork text } := by
  rw [ofText, h]
  exact ofTerms_eq settings rfl _ _ _

/-- **The solution of a text is exact** if and only if the text is read as a
recurrence and its work is known.  What is read is what is solved, in the class
of its terms.  Any other text is solved as `2T(n/2) + f(n)`, and a note says
so. -/
theorem confidence_ofText (text : String) :
    ((ofText settings text).confidence = .exact ↔
        ∃ w, WrittenRecurrence.read text = .ok w ∧ w.work.known = true) ∧
      (∀ w, WrittenRecurrence.read text = .ok w →
        ∃ c, RecurrenceClass.classify w.terms = .ok c ∧
          (ofText settings text).recurrence = { kind := c, terms := w.terms, work := w.work }) ∧
      ∀ fault, WrittenRecurrence.read text = .error fault →
        (ofText settings text).recurrence.kind = .equalDivision ∧
          (ofText settings text).recurrence.terms =
            [{ coefficient := 2, kind := .division, amount := 2 }] ∧
          (ofText settings text).recurrence.work = WrittenRecurrence.salvagedWork text ∧
          ∃ note ∈ (ofText settings text).notes, note.kind = .unclassifiableRecurrence := by
  rw [confidence_eq_exact_iff]
  cases hread : WrittenRecurrence.read text with
  -- a text that is read has terms of one kind, so its class is found
  | ok w =>
      obtain ⟨c, hc⟩ := WrittenRecurrence.exists_classify hread
      rw [ofText_of_read settings hread hc, notes_ofRecurrence_eq_nil_iff]
      refine ⟨by simp, fun w' hw' => ?_, nofun⟩
      obtain rfl := Except.ok.inj hw'
      exact ⟨c, hc, recurrence_ofRecurrence settings _ _ _⟩
  -- a fault is noted, and a recurrence is assumed
  | error fault =>
      rw [ofText_of_fault settings hread, notes_ofRecurrence_eq_nil_iff]
      have hnote : assumptionNote fault.reason ∈ [assumptionNote fault.reason] :=
        List.mem_cons_self
      simp only [recurrence_ofRecurrence]
      refine ⟨by simp, nofun, fun _ _ => ⟨trivial, rfl, trivial, assumptionNote fault.reason, ?_⟩⟩
      exact ⟨mem_notes_ofRecurrence settings hnote, rfl⟩

/-- Two calls on fractions are solved exactly.  A call on a root is no term,
which a note says. -/
theorem confidence_ofText_calls :
    ((ofText {} "T(n) = 2T(n/2) + T(n/4) + 3n log n").confidence = .exact ∧
        (ofText {} "T(n) = 2T(n/2) + T(n/4) + 3n log n").recurrence.kind = .twoDivisions) ∧
      ∃ note ∈ (ofText {} "T(n) = T(sqrt(n)) + n").notes,
        note.kind = .unclassifiableRecurrence := by
  have hread : ((WrittenRecurrence.read "T(n) = 2T(n/2) + T(n/4) + 3n log n").toOption.map fun w =>
      (w.terms, w.work.known)) = some ([⟨2, .division, 2⟩, ⟨1, .division, 4⟩], true) := by
    decide +kernel
  have hnone : (WrittenRecurrence.read "T(n) = T(sqrt(n)) + n").toOption = none := by
    decide +kernel
  obtain ⟨w, hw, hparts⟩ := Option.map_eq_some_iff.mp hread
  obtain ⟨hterms, hknown⟩ := Prod.mk.inj hparts
  have hw := WrittenRecurrence.eq_ok_of_toOption hw
  obtain ⟨hexact, hsolved, -⟩ := confidence_ofText {} "T(n) = 2T(n/2) + T(n/4) + 3n log n"
  obtain ⟨-, -, hnoted⟩ := confidence_ofText {} "T(n) = T(sqrt(n)) + n"
  obtain ⟨c, hc, hrecurrence⟩ := hsolved w hw
  refine ⟨⟨hexact.mpr ⟨w, hw, hknown⟩, ?_⟩, ?_⟩
  · rw [hterms] at hc
    rw [hrecurrence]
    exact (Except.ok.inj hc).symm
  · cases hfault : WrittenRecurrence.read "T(n) = T(sqrt(n)) + n" with
    | ok v => rw [hfault] at hnone; cases hnone
    | error fault => exact (hnoted fault hfault).2.2.2

end RecurrenceSolution

end CostAnalysis
