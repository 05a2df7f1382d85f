import StraightForth.Proofs.Columns
import StraightForth.Proofs.Spelling

/-!
# Reformatted text

A reformatted text has the lines of the original with the same tokens, so that reformatting it
once more changes nothing. The main statement is that nobody can tell the two apart, except by
the columns of diagnostics: they run alike from every session, and they compile to the same
listing or fail alike.
-/

namespace StraightForth

namespace Line

/-- The lines of a text are numbered by their places. -/
theorem zipIdx_ofSource (source : String) :
    (ofSource source).zipIdx 1 = (ofSource source).map fun line => (line, line.number) := by
  apply List.ext_getElem
  · simp
  · intro index _ _
    simp [ofSource]

/-- Reformatting moves the tokens of a line and keeps them. -/
theorem Legible.forgetColumns_ofString {line : Line} (h : line.Legible) :
    (ofString line.number line.text).forgetColumns = line.forgetColumns := by
  have hplaces := congrArg (List.map (Located.mk Span.unset)) h.reread
  rw [List.map_map, List.map_map] at hplaces
  exact congrArg (Line.mk line.number) hplaces

theorem map_forgetColumns_ofSource_reformat (source : String) :
    (ofSource (reformat source)).map forgetColumns = (ofSource source).map forgetColumns := by
  have hrows : ∀ row ∈ (ofSource source).map text, '\n' ∉ row.toList := by
    intro row hrow
    obtain ⟨line, hline, rfl⟩ := List.mem_map.1 hrow
    exact (legible_of_mem_ofSource hline).feed
  have hlines : ofSource (reformat source) =
      (ofSource source).map fun line => ofString line.number line.text := by
    calc
      ofSource (reformat source)
        = ((((ofSource source).map text).map String.toList).zipIdx 1).map
            (fun row => ⟨row.2, Token.scan row.1⟩) := by
          rw [ofSource, reformat, Text.lines_unlines hrows]
      _ = ((ofSource source).zipIdx 1).map (fun row => ofString row.2 row.1.text) := by
          rw [List.map_map, List.zipIdx_map, List.map_map]
          rfl
      _ = (ofSource source).map fun line => ofString line.number line.text := by
          rw [zipIdx_ofSource, List.map_map]
          rfl
  rw [hlines, List.map_map]
  apply List.map_congr_left
  intro line hline
  exact (legible_of_mem_ofSource hline).forgetColumns_ofString

/-- Reformatted text is in its plainest form already. -/
theorem reformat_reformat (source : String) : reformat (reformat source) = reformat source := by
  have htexts (other : String) :
      (ofSource other).map text = ((ofSource other).map forgetColumns).map text := by
    rw [List.map_map]
    exact List.map_congr_left fun line _ => line.text_forgetColumns.symm
  rw [reformat, htexts, map_forgetColumns_ofSource_reformat, ← htexts, reformat]

open Assembly in
/-- Reformatting is done once and for all, and it keeps the lines of a text with their numbers
and tokens. The reformatted text leaves every session as the original does, with the same
prints and diagnostics in the same order and with the same ending; and it compiles to the same
listing, or ends the compilation as the original does. Only the columns of the diagnostics are
others. -/
theorem reformat_keeps_meaning (source : String) :
    reformat (reformat source) = reformat source ∧
    (ofSource (reformat source)).map forgetColumns = (ofSource source).map forgetColumns ∧
    (∀ session : Session,
      let plain := session.execute (reformat source)
      let original := session.execute source
      plain.1.options = original.1.options ∧ plain.1.state = original.1.state ∧
        (∃ new new', plain.1.events.toList = session.events.toList ++ new ∧
          original.1.events.toList = session.events.toList ++ new' ∧
          new.map Event.forgetColumn = new'.map Event.forgetColumn) ∧
        plain.2.map Diagnostic.forgetColumn = original.2.map Diagnostic.forgetColumn) ∧
    ∀ recover,
      match compile recover (reformat source), compile recover source with
      | .ok plain, .ok original =>
          plain.data = original.data ∧ plain.cells = original.cells ∧
            List.Forall₂ TextLine.SameButColumn plain.text original.text ∧
            plain.errors.map Diagnostic.forgetColumn = original.errors.map Diagnostic.forgetColumn
      | .error report, .error report' => report.forgetColumn = report'.forgetColumn
      | _, _ => False := by
  have hlines := map_forgetColumns_ofSource_reformat source
  refine ⟨reformat_reformat source, hlines, ?_, ?_⟩
  · intro session
    have hruns := Session.parallel_of_forgetColumns hlines session
    generalize session.execute (reformat source) = plain at hruns ⊢
    generalize session.execute source = original at hruns ⊢
    obtain ⟨hoptions, hstate, ⟨new, new', hnew, hnew', hevents⟩, hresult⟩ := hruns
    refine ⟨hoptions, hstate, ⟨new, new', hnew, hnew', forall₂_iff_map_eq.1 hevents⟩, ?_⟩
    generalize plain.2 = ended at hresult ⊢
    generalize original.2 = ended' at hresult ⊢
    cases hresult with
    | none => rfl
    | some h => exact congrArg some (Event.diagnostic.inj h)
  · intro recover
    have hboth := both_compile_of_forgetColumns hlines recover
    generalize compile recover (reformat source) = plain at hboth ⊢
    generalize compile recover source = original at hboth ⊢
    cases hboth with
    | error h => exact h
    | ok h =>
        obtain ⟨hnames, hvars, htext, herrors⟩ := h
        refine ⟨?_, ?_, htext, herrors⟩
        · rw [Listing.data, Listing.data, hnames]
        · rw [Listing.cells, Listing.cells, hvars]

/-- Signs, leading zeros, blanks and comments go, and names and empty lines stay. -/
example : reformat " +007 \\ seven\n\n-0\tx2" = "7\n\n0 x2\n" := by
  decide +kernel

end Line

end StraightForth
