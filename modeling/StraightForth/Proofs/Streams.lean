import StraightForth.Proofs.Contracts
import StraightForth.Proofs.Dumps
import StraightForth.Proofs.Forms
import StraightForth.Proofs.Reporting
import StraightForth.Proofs.Resets

/-!
# The output of a run

What a run of a file writes on the two standard streams is known from the events of its session.
The main statement says what it is, and that each print and each error is one row of its stream.
The rows are whole because no token has a line break in it, and what stands around the tokens
has none either.
-/

namespace StraightForth

namespace Text

/-- A line feed ends the text, and nothing in front of it breaks the row. -/
def IsRow (text : String) : Prop := ∃ row, Lacks breaks row ∧ text = row ++ "\n"

theorem IsRow.count_feed {text : String} (h : IsRow text) : text.toList.count '\n' = 1 := by
  obtain ⟨row, hrow, rfl⟩ := h
  have hfeed : '\n' ∉ row.toList := hrow '\n' (by decide)
  simp [List.count_eq_zero.2 hfeed]

/-- Rows have a line feed each. -/
theorem count_feed_join {texts : List String} (h : ∀ text ∈ texts, IsRow text) :
    (String.join texts).toList.count '\n' = texts.length := by
  induction texts with
  | nil => rfl
  | cons text rest ih =>
      have hrow := (h text List.mem_cons_self).count_feed
      have hrest := ih fun later hlater => h later (List.mem_cons_of_mem text hlater)
      rw [String.join_cons, String.toList_append, List.count_append, hrow, hrest,
        List.length_cons, Nat.add_comm]

end Text

/-- What shows an event on its stream. -/
def Event.shown : Event → String
  | .print text => text
  | .diagnostic report => report.complaint ++ "\n"

section Rows

theorem Operand.lacks_text {operand : Operand} (h : operand.token.Legible) :
    Text.Lacks Text.breaks operand.text := by
  rw [← operand.text_token]
  exact h.solid.lacks

/-- A word prints one row, as long as what it finds on the stack can be read back. -/
theorem Word.isRow_of_print? {word : Word} {operands : List Operand} {text : String}
    (hlegible : ∀ operand ∈ operands, operand.token.Legible)
    (h : word.print? operands = some text) : Text.IsRow text := by
  cases word with
  | dot =>
      obtain ⟨top, htop, rfl⟩ := Option.map_eq_some_iff.1 h
      exact ⟨top.text, Operand.lacks_text (hlegible top (List.mem_of_getLast? htop)), rfl⟩
  | dotS =>
      cases h
      refine ⟨"[Bottom -> Top] [" ++ ", ".intercalate (operands.map Operand.text) ++ "]", ?_, ?_⟩
      · rw [Text.lacks_append, Text.lacks_append]
        refine ⟨⟨by decide, Text.lacks_intercalate (by decide) fun shown hshown => ?_⟩, by decide⟩
        obtain ⟨operand, hoperand, rfl⟩ := List.mem_map.1 hshown
        exact Operand.lacks_text (hlegible operand hoperand)
      · apply String.toList_inj.1
        simp
  | _ => cases h

/-- A diagnostic is shown in one row if its message has no break. -/
theorem Diagnostic.isRow_shown {report : Diagnostic} (h : Text.Lacks Text.breaks report.message) :
    Text.IsRow (Event.diagnostic report).shown :=
  ⟨report.complaint, Text.lacks_append.2 ⟨by decide, Diagnostic.lacks_text h⟩, rfl⟩

end Rows

section Dispatched

/-- Likenesses of a state and of the commands with themselves are there at every dispatch. -/
theorem Session.alike_of_mem_dispatches {l : Likeness} {session : Session} {turns : List Turn}
    {d : Dispatch} (hstate : session.state.Alike l session.state)
    (hturns : ∀ turn ∈ turns, turn.command.Alike l turn.command)
    (h : d ∈ session.dispatches turns) :
    d.found.Alike l d.found ∧ d.turn.command.Alike l d.turn.command := by
  induction turns generalizing session with
  | nil => cases h
  | cons turn rest ih =>
      have hturn := hturns turn List.mem_cons_self
      have hafter := session.state_take turn.step
      rw [dispatches_cons] at h
      generalize session.take turn.step = result at h hafter
      rcases List.mem_cons.1 h with rfl | hlater
      · exact ⟨hstate, hturn⟩
      · obtain ⟨after, _ | fatal⟩ := result
        · have hnext : after.state.Alike l after.state := by
            rw [show after.state = _ from hafter]
            exact (hstate.execute hturn).state
          exact ih hnext (fun later hmem => hturns later (List.mem_cons_of_mem turn hmem)) hlater
        · cases hlater

/-- Only a primitive prints. -/
theorem State.exists_of_printed {s : State} {command : Command} {text : String}
    (h : (s.execute command).2 = .printed text) :
    ∃ primitive, command = .perform primitive ∧ (s.perform primitive).2 = .printed text := by
  cases command with
  | perform primitive => exact ⟨primitive, rfl, h⟩
  | push | declare | declareNothing | declareReserved => cases h

/-- Where all names are identifiers, a dispatch shows its event in one row. -/
theorem Dispatch.isRow_shown {d : Dispatch} {event : Event}
    (hfound : d.found.Alike .ofIdentifiers d.found)
    (hcommand : d.turn.command.Alike .ofIdentifiers d.turn.command)
    (h : d.event? = some event) : Text.IsRow event.shown := by
  have houtcome : d.effect.2.Alike .ofIdentifiers d.effect.2 := (hfound.execute hcommand).outcome
  rw [Dispatch.event?] at h
  cases heffect : d.effect.2 with
  | done =>
      rw [heffect] at h
      cases h
  | printed text =>
      rw [heffect] at h
      cases h
      obtain ⟨primitive, hperform, hprinted⟩ := State.exists_of_printed heffect
      obtain ⟨word, _, hprimitive⟩ := Turn.command_eq_perform_iff.1 hperform
      have hlegible := (State.hasIdentifiers_of_alike hfound).legible
      exact Word.isRow_of_print? hlegible (Word.print?_of_printed hprimitive hprinted)
  | abandoned fault =>
      rw [heffect] at h houtcome
      cases h
      cases houtcome with
      | abandoned hfault =>
          apply Diagnostic.isRow_shown
          rw [Fault.reportAt_eq]
          exact hfault.lacks_message

/-- So a text is run with one row for each event, the one that ends the run included. -/
theorem Session.isRow_of_execute {session : Session}
    (hstate : session.start.state.Alike .ofIdentifiers session.start.state) (source : String) :
    let run := session.execute source
    ∃ queued, run.1.events.toList = session.events.toList ++ queued ∧
      ∀ event ∈ queued ++ (run.2.map Event.diagnostic).toList, Text.IsRow event.shown := by
  intro run
  obtain ⟨queued, hqueued, hevents⟩ :=
    session.start.exists_events_dispatches (Turn.ofSource source)
  rw [Turn.ofSource_map_step, events_start] at hqueued
  rw [Turn.ofSource_map_step] at hevents
  refine ⟨queued, hqueued, fun event hevent => ?_⟩
  rw [show queued ++ (run.2.map Event.diagnostic).toList = _ from hevents] at hevent
  obtain ⟨d, hd, hshown⟩ := List.mem_filterMap.1 hevent
  obtain ⟨hfound, hcommand⟩ :=
    alike_of_mem_dispatches hstate (fun _ => Assembly.alike_command_of_mem) hd
  exact Dispatch.isRow_shown hfound hcommand hshown

/-- In a new session, each print has a row, and so has each diagnostic. -/
theorem Session.isRow_of_new (options : Options) (source : String) :
    let run := (new options).execute source
    (∀ text ∈ run.1.events.toList.filterMap Event.printed?, Text.IsRow text) ∧
      ∀ error ∈ run.1.events.toList.filterMap Event.report? ++ run.2.toList,
        Text.IsRow (error.complaint ++ "\n") := by
  intro run
  have hstate : (new options).start.state.Alike .ofIdentifiers (new options).start.state := by
    rw [start_new]
    exact .empty
  obtain ⟨queued, hqueued, hrows⟩ := isRow_of_execute hstate source
  obtain rfl : run.1.events.toList = queued := hqueued
  constructor
  · intro text htext
    obtain ⟨event, hevent, hprinted⟩ := List.mem_filterMap.1 htext
    have hrow := hrows event (List.mem_append_left _ hevent)
    cases event with
    | print => exact Option.some.inj hprinted ▸ hrow
    | diagnostic => cases hprinted
  · intro error herror
    apply hrows (.diagnostic error)
    rcases List.mem_append.1 herror with hqueued | hfatal
    · apply List.mem_append_left
      obtain ⟨event, hevent, hreport⟩ := List.mem_filterMap.1 hqueued
      cases event with
      | print => cases hreport
      | diagnostic => exact Option.some.inj hreport ▸ hevent
    · apply List.mem_append_right
      rw [Option.mem_toList] at hfatal ⊢
      exact Option.mem_map_of_mem Event.diagnostic hfatal

end Dispatched

section Responses

theorem Transcript.ofEvents_eq (events : List Event) :
    ofEvents events = ⟨String.join (events.filterMap Event.printed?),
      complaints (events.filterMap Event.report?)⟩ := rfl

/-- Diagnostics without breaks in them take a line each. -/
theorem count_feed_complaints {errors : List Diagnostic}
    (h : ∀ error ∈ errors, Text.IsRow (error.complaint ++ "\n")) :
    (complaints errors).toList.count '\n' = errors.length := by
  have hlines : ∀ line ∈ (errors.map Diagnostic.complaint).map (· ++ "\n"), Text.IsRow line := by
    rw [List.map_map]
    intro line hline
    obtain ⟨error, herror, rfl⟩ := List.mem_map.1 hline
    exact h error herror
  have hcount := Text.count_feed_join hlines
  rwa [List.length_map, List.length_map] at hcount

/-- Whether a new session keeps anything for the next text cannot be seen from its first one. -/
theorem Session.execute_new_persist (recover persist persist' : Bool) (source : String) :
    let run := (new ⟨recover, persist⟩).execute source
    let other := (new ⟨recover, persist'⟩).execute source
    run.1.events.toList = other.1.events.toList ∧ run.2 = other.2 := by
  have hempty : (new ⟨recover, persist⟩).start.state = .empty := by
    rw [start_new]
    rfl
  have hrepeats := repeats_of_start hempty persist' source
  exact ⟨hrepeats.events, hrepeats.result⟩

end Responses

namespace Invocation

variable {files : Files} (invocation : Invocation) {source : String}

/-- What a run of a file writes is told by a run of its text in a new session. -/
theorem respond_eq_of_run (readable : files.read invocation.file = .ok source.toUTF8) :
    let run := (Session.new { recover := invocation.recover }).execute source
    ({ invocation with output := none }).respond files =
      ⟨⟨String.join (run.1.events.toList.filterMap Event.printed?),
        complaints (run.1.events.toList.filterMap Event.report? ++ run.2.toList)⟩,
        if run.2.isSome then 1 else 0⟩ := by
  intro run
  obtain ⟨hevents, hresult⟩ : _ ∧ _ :=
    Session.execute_new_persist invocation.recover (!invocation.fresh) true source
  rw [respond_of_run { invocation with output := none } readable rfl, Response.finish_eq,
    Transcript.ofEvents_eq, complaints_append]
  simp only [options, hevents, hresult, run]

/-- A run of a file writes what happens to its text in a new session, whether that keeps anything
or not: the prints in their order on the standard output, and on the standard error a line for
each diagnostic, with the one that ends the run in the end. Its exit code tells whether there is
one. Without recovery this is what running the text alone writes, except for the fatal
diagnostic, which is returned there. And each print and each error has a row of its own. -/
theorem run_shows_events (readable : files.read invocation.file = .ok source.toUTF8) :
    let ran := ({ invocation with output := none }).respond files
    let run := (Session.new { recover := invocation.recover }).execute source
    let prints := run.1.events.toList.filterMap Event.printed?
    let reports := run.1.events.toList.filterMap Event.report?
    let errors := reports ++ run.2.toList
    ran.transcript.stdout = String.join prints ∧
      ran.transcript.stderr = Text.unlines (errors.map fun error => "?" ++ error.text) ∧
      ran.exitCode = (if run.2.isSome then 1 else 0) ∧
      (invocation.recover = false →
        interpret {} source =
          (⟨ran.transcript.stdout, Text.unlines (reports.map fun report => "?" ++ report.text)⟩,
            run.2)) ∧
      (∀ text ∈ prints, Text.IsRow text) ∧
      (∀ error ∈ errors, Text.IsRow ("?" ++ error.text ++ "\n")) ∧
      ran.transcript.stdout.toList.count '\n' = prints.length ∧
      ran.transcript.stderr.toList.count '\n' = errors.length := by
  intro ran run prints reports errors
  have hran : ran = ⟨⟨String.join prints, complaints errors⟩, if run.2.isSome then 1 else 0⟩ :=
    respond_eq_of_run invocation readable
  have halone (hrecover : invocation.recover = false) :
      interpret {} source = (Transcript.ofEvents run.1.events.toList, run.2) := by
    simp only [interpret, run, hrecover]
  obtain ⟨hprints, herrors⟩ : (∀ text ∈ prints, Text.IsRow text) ∧
      ∀ error ∈ errors, Text.IsRow (error.complaint ++ "\n") :=
    Session.isRow_of_new { recover := invocation.recover } source
  rw [hran]
  clear_value run ran
  exact ⟨rfl, complaints_eq errors, rfl, halone, hprints, herrors,
    Text.count_feed_join hprints, count_feed_complaints herrors⟩

/-- One print and two errors, the fatal one last. -/
theorem run_shows_fatal_last :
    let source := "1 . +\n2 x swap\n3 ."
    let ran := ({ file := "p.fs", fresh := true } : Invocation).respond (program source)
    (program source).read "p.fs" = .ok source.toUTF8 ∧ ran.exitCode = 1 ∧
      ran.transcript.stdout = "1\n" ∧
      ran.transcript.stderr = "?STACK UNDERFLOW IN 1 (4..5)\n" ++
        "?TYPE MISMATCH IN 2 (4..8); expected integer, found x\n" := by
  intro source ran
  have readable : (program source).read "p.fs" = .ok source.toUTF8 := by decide +kernel
  obtain ⟨hstdout, hstderr, hcode, _⟩ := run_shows_events { file := "p.fs", fresh := true } readable
  exact ⟨readable, hcode.trans (by decide +kernel), hstdout.trans (by decide +kernel),
    hstderr.trans (by decide +kernel)⟩

end Invocation

end StraightForth
