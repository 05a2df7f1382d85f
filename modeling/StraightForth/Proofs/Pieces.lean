import StraightForth.Proofs.Steps
import Mathlib.Data.List.Basic

/-!
# Texts in pieces

A text with a line feed in it can be run as one text or as two. The lines of the second piece
then have other numbers, and nothing else changes: the main statement is that the state, the
events and the result are the same but for the lines of the diagnostics from the second piece,
and that a fatal fault in the first piece keeps the second one from having any effect.
-/

namespace StraightForth

namespace Text

/-- Text at the front changes the first line only. -/
theorem consLines_append (c : Char) {first : List (List Char)} (h : first ≠ [])
    (second : List (List Char)) :
    consLines c (first ++ second) = consLines c first ++ second := by
  obtain ⟨line, rest, rfl⟩ := List.exists_cons_of_ne_nil h
  simp only [consLines]
  split <;> rfl

theorem consLines_ne_nil (c : Char) (later : List (List Char)) : consLines c later ≠ [] := by
  simp only [consLines]
  split
  · exact List.cons_ne_nil _ _
  · cases later <;> exact List.cons_ne_nil _ _

/-- Any text has a line once a line feed ends it. -/
theorem lines_feed_ne_nil (text : List Char) : lines (text ++ ['\n']) ≠ [] := by
  cases text with
  | nil => exact consLines_ne_nil '\n' []
  | cons c text => exact consLines_ne_nil c _

/-- A line feed divides the lines of a text into those before it and those after it. -/
theorem lines_append_feed (first second : List Char) :
    lines (first ++ '\n' :: second) = lines (first ++ ['\n']) ++ lines second := by
  induction first with
  | nil => rfl
  | cons c first ih =>
      rw [List.cons_append, lines_cons, ih, consLines_append c (lines_feed_ne_nil first)]
      rfl

theorem length_lines_feed (text : List Char) :
    (lines (text ++ ['\n'])).length = text.count '\n' + 1 := by
  induction text with
  | nil => rfl
  | cons c text ih =>
      rw [List.cons_append, lines_cons]
      obtain ⟨line, rest, hlines⟩ := List.exists_cons_of_ne_nil (lines_feed_ne_nil text)
      rw [hlines] at ih ⊢
      by_cases hc : c = '\n'
      · simpa [consLines, hc] using ih
      · simpa [consLines, hc] using ih

/-- A line feed at the end adds an empty line or nothing. -/
theorem lines_feed (text : List Char) :
    lines (text ++ ['\n']) = lines text ∨ lines (text ++ ['\n']) = lines text ++ [[]] := by
  induction text with
  | nil => exact .inr rfl
  | cons c text ih =>
      rw [List.cons_append, lines_cons, lines_cons]
      rcases ih with ih | ih
      · exact .inl (congrArg (consLines c) ih)
      · rw [ih]
        by_cases hnil : lines text = []
        · by_cases hc : c = '\n'
          · exact .inr (by simp [hnil, consLines, hc])
          · exact .inl (by simp [hnil, consLines, hc])
        · exact .inr (consLines_append c hnil _)

end Text

section MoveDown

/-- A diagnostic some lines further down. -/
def Diagnostic.moveDown (lines : Nat) (d : Diagnostic) : Diagnostic :=
  { d with line := d.line.map (· + lines) }

/-- An event some lines further down. A print has no place. -/
def Event.moveDown (lines : Nat) : Event → Event
  | .print text => .print text
  | .diagnostic report => .diagnostic (report.moveDown lines)

/-- A step some lines further down. -/
def Step.moveDown (lines : Nat) (step : Step) : Step :=
  { step with line := step.line + lines }

theorem Fault.reportAt_moveDown (fault : Fault) (line lines : Nat) (column : Span) :
    fault.reportAt (line + lines) column = (fault.reportAt line column).moveDown lines := by
  rw [reportAt_eq, reportAt_eq]
  rfl

@[simp] theorem Fault.isSome_line_reportAt (fault : Fault) (line : Nat) (column : Span) :
    (fault.reportAt line column).line.isSome = true := by
  rw [reportAt_eq]
  rfl

@[simp] theorem Diagnostic.isFatal_moveDown (lines : Nat) (d : Diagnostic) :
    (d.moveDown lines).isFatal = d.isFatal := rfl

end MoveDown

namespace Step

/-- The steps of some lines of text, the first of which has a given number. -/
def ofLines (number : Nat) (lines : List (List Char)) : List Step :=
  ((lines.zipIdx number).map fun line => Line.mk line.2 (Token.scan line.1)).flatMap Line.steps

theorem ofSource_eq (source : String) : ofSource source = ofLines 1 (Text.lines source.toList) :=
  rfl

theorem ofLines_append (number : Nat) (first second : List (List Char)) :
    ofLines number (first ++ second) =
      ofLines number first ++ ofLines (number + first.length) second := by
  simp [ofLines, List.zipIdx_append]

theorem steps_moveDown (number lines : Nat) (tokens : List (Located Token)) :
    (Line.mk (number + lines) tokens).steps =
      (Line.mk number tokens).steps.map (moveDown lines) := by
  simp [Line.steps, moveDown]

/-- Lines that stand further down give the same steps further down. -/
theorem ofLines_add (number count : Nat) (lines : List (List Char)) :
    ofLines (number + count) lines = (ofLines number lines).map (moveDown count) := by
  induction lines generalizing number with
  | nil => rfl
  | cons line lines ih =>
      have hnext := ih (number + 1)
      simp only [ofLines, List.zipIdx_cons, List.map_cons, List.flatMap_cons, List.map_append,
        steps_moveDown, Nat.add_right_comm number count 1] at hnext ⊢
      rw [hnext]

/-- An empty line at the end has no steps. -/
theorem ofLines_feed (number : Nat) (text : List Char) :
    ofLines number (Text.lines (text ++ ['\n'])) = ofLines number (Text.lines text) := by
  rcases Text.lines_feed text with h | h
  · rw [h]
  · rw [h, ofLines_append]
    exact List.append_nil _

/-- The steps of a text with a line feed in it. -/
theorem ofSource_append_feed (first second : String) :
    ofSource (first ++ "\n" ++ second) =
      ofSource first ++
        (ofSource second).map (moveDown (first.toList.count '\n' + 1)) := by
  have hlist : (first ++ "\n" ++ second).toList = first.toList ++ '\n' :: second.toList := by
    simp
  rw [ofSource_eq, hlist, Text.lines_append_feed, ofLines_append, Text.length_lines_feed,
    ofLines_feed, ofLines_add, ← ofSource_eq, ← ofSource_eq]

end Step

namespace Session

/-- Two sessions that differ in their events alone. Both have the events of a common start,
and then the same ones, but in the second some lines further down. -/
structure MovedDown (lines : Nat) (start : List Event) (upper lower : Session) : Prop where
  options : lower.options = upper.options
  state : lower.state = upper.state
  events : ∃ new : List Event,
    upper.events.toList = start ++ new ∧
      lower.events.toList = start ++ new.map (Event.moveDown lines) ∧
      ∀ report, .diagnostic report ∈ new → report.line.isSome = true

theorem movedDown_refl (lines : Nat) (session : Session) :
    session.MovedDown lines session.events.toList session :=
  ⟨rfl, rfl, [], by simp, by simp, by simp⟩

variable {lines : Nat} {start : List Event} {upper lower : Session}

theorem MovedDown.queue (h : MovedDown lines start upper lower) {event : Event}
    (hline : ∀ report, event = .diagnostic report → report.line.isSome = true) :
    MovedDown lines start (upper.queue event) (lower.queue (event.moveDown lines)) := by
  obtain ⟨new, hupper, hlower, hnew⟩ := h.events
  refine ⟨h.options, h.state, new ++ [event], ?_, ?_, ?_⟩
  · simp [Session.queue, hupper]
  · simp [Session.queue, hlower]
  · intro report hreport
    rcases List.mem_append.1 hreport with hreport | hreport
    · exact hnew report hreport
    · exact hline report (List.mem_singleton.1 hreport).symm

/-- A step some lines further down has the same effect, and reports it further down. -/
theorem MovedDown.take (h : MovedDown lines start upper lower) (step : Step) :
    MovedDown lines start (upper.take step).1 (lower.take (step.moveDown lines)).1 ∧
      (lower.take (step.moveDown lines)).2 =
        (upper.take step).2.map (Diagnostic.moveDown lines) ∧
      ∀ report, (upper.take step).2 = some report → report.line.isSome = true := by
  simp only [Session.take]
  simp only [h.state, h.options, Step.moveDown, Fault.reportAt_moveDown,
    Diagnostic.isFatal_moveDown]
  have hafter (state : State) : MovedDown lines start ⟨upper.options, state, upper.events⟩
      ⟨upper.options, state, lower.events⟩ := ⟨rfl, rfl, h.events⟩
  cases upper.state.execute step.command with
  | mk state outcome =>
      cases outcome with
      | done => exact ⟨hafter state, rfl, fun _ hreport => by cases hreport⟩
      | printed text =>
          refine ⟨(hafter state).queue ?_, rfl, fun _ hreport => by cases hreport⟩
          intro report heq
          cases heq
      | abandoned fault =>
          dsimp only
          split
          · refine ⟨hafter state, rfl, ?_⟩
            intro report hreport
            obtain rfl := Option.some.inj hreport
            exact fault.isSome_line_reportAt step.line step.column
          · refine ⟨(hafter state).queue ?_, rfl, fun _ hreport => by cases hreport⟩
            intro report heq
            obtain rfl := Event.diagnostic.inj heq
            exact fault.isSome_line_reportAt step.line step.column

/-- The same steps further down have the same effects, and are all reported further down. -/
theorem MovedDown.takeAll (h : MovedDown lines start upper lower) (steps : List Step) :
    MovedDown lines start (upper.takeAll steps).1
        (lower.takeAll (steps.map (Step.moveDown lines))).1 ∧
      (lower.takeAll (steps.map (Step.moveDown lines))).2 =
        (upper.takeAll steps).2.map (Diagnostic.moveDown lines) ∧
      ∀ report, (upper.takeAll steps).2 = some report → report.line.isSome = true := by
  induction steps generalizing upper lower with
  | nil => exact ⟨h, rfl, fun _ hreport => by cases hreport⟩
  | cons step rest ih =>
      obtain ⟨hmoved, hresult, hline⟩ := h.take step
      rw [List.map_cons, Session.takeAll, Session.takeAll]
      generalize upper.take step = above at hmoved hresult hline
      generalize lower.take (step.moveDown lines) = below at hmoved hresult
      obtain ⟨above, _ | fatal⟩ := above
      · obtain ⟨below, result⟩ := below
        obtain rfl : result = none := hresult
        exact ih hmoved
      · obtain ⟨below, result⟩ := below
        obtain rfl : result = some (fatal.moveDown lines) := hresult
        exact ⟨hmoved, rfl, hline⟩

/-- A text in two pieces, one after the other, is the text with a line feed between them. What
the second piece reports stands further down by the lines of the first, and a fatal fault in
the first piece leaves the second one without effect. -/
theorem execute_append_feed (recover : Bool) (state : State) (events : Array Event)
    (first second : String) :
    let session : Session := ⟨⟨recover, true⟩, state, events⟩
    let whole := session.execute (first ++ "\n" ++ second)
    let lines := first.toList.count '\n' + 1
    (∀ middle, session.execute first = (middle, none) →
      whole.1.options = (middle.execute second).1.options ∧
      whole.1.state = (middle.execute second).1.state ∧
      whole.2 = (middle.execute second).2.map (Diagnostic.moveDown lines) ∧
      (∀ report, (middle.execute second).2 = some report → report.line.isSome = true) ∧
      ∃ new : List Event,
        (middle.execute second).1.events.toList = middle.events.toList ++ new ∧
        whole.1.events.toList = middle.events.toList ++ new.map (Event.moveDown lines) ∧
        ∀ report, .diagnostic report ∈ new → report.line.isSome = true) ∧
    ∀ after fatal, session.execute first = (after, some fatal) → whole = (after, some fatal) := by
  intro session whole lines
  have hwhole : whole = session.takeAll (Step.ofSource first ++
      (Step.ofSource second).map (Step.moveDown lines)) := by
    rw [← Step.ofSource_append_feed]
    rfl
  have hfirst : session.execute first = session.takeAll (Step.ofSource first) := rfl
  rw [hwhole, takeAll_append, hfirst]
  constructor
  · intro middle hmiddle
    rw [hmiddle]
    have hpersist : middle.options.persist = true := by
      have hoptions := session.options_takeAll (Step.ofSource first)
      rw [hmiddle] at hoptions
      exact congrArg Options.persist hoptions
    have hsecond : middle.execute second = middle.takeAll (Step.ofSource second) := by
      rw [execute, if_pos hpersist]
    obtain ⟨hmoved, hresult, hline⟩ :=
      (movedDown_refl lines middle).takeAll (Step.ofSource second)
    rw [hsecond]
    exact ⟨hmoved.options, hmoved.state, hresult, hline, hmoved.events⟩
  · intro after fatal hafter
    rw [hafter]

end Session

end StraightForth
