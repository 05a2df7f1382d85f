import StraightForth.Proofs.Dispatches
import StraightForth.Proofs.Foretelling
import StraightForth.Proofs.Identifiers
import StraightForth.Proofs.Likeness.Listings
import StraightForth.Proofs.Mirroring

/-!
# The visits of a compilation

The compiler visits the turns of a source one after the other, and has a shape for each. A
compilation that comes to its end is told by its visits: the listing shows each line of source,
and below it the code and the report of each turn on that line. The visits match the dispatches
of a run one by one, and the shape of a visit describes the state of its dispatch.
-/

namespace StraightForth

namespace Assembly

/-- The diagnostic that a line reports. -/
def TextLine.report? : TextLine → Option Diagnostic
  | report diagnostic => some diagnostic
  | _ => none

/-- A command compiles to code and labels only. -/
theorem Shape.reports_execute (shape : Shape) (command : Command) :
    (shape.execute command).lines.filterMap TextLine.report? = [] := by
  apply List.filterMap_eq_nil_iff.2
  intro line hline
  have hcode := (shape.extends_execute command).lines line hline
  cases line with
  | report diagnostic => exact hcode.elim
  | _ => rfl

/-- A turn, and the shape that it is compiled for. -/
structure Visit where
  found : Shape
  turn : Turn

namespace Visit

/-- What the turn is compiled to. -/
def emission (v : Visit) : Emission := v.found.execute v.turn.command

/-- The report of the turn, if its command is abandoned. -/
def report? (v : Visit) : Option Diagnostic :=
  v.emission.fault.map fun fault => fault.reportAt v.turn.line v.turn.token.column

/-- The lines that the turn adds to the listing. -/
def lines (v : Visit) : List TextLine :=
  v.emission.lines ++ v.report?.toList.map .report

end Visit

namespace Shape

/-- The shape after some turns. -/
def after (shape : Shape) (turns : List Turn) : Shape :=
  turns.foldl (fun shape turn => (shape.execute turn.command).shape) shape

/-- The visits of some turns. -/
def visits (shape : Shape) : List Turn → List Visit
  | [] => []
  | turn :: rest => ⟨shape, turn⟩ :: (shape.execute turn.command).shape.visits rest

/-- What the listing says about some lines of source. -/
def page (shape : Shape) : List Line → List TextLine
  | [] => []
  | line :: rest =>
      let turns := Turn.ofTokens line.number line.tokens
      (if line.isEmpty then [] else [.source line]) ++ (shape.visits turns).flatMap Visit.lines ++
        (shape.after turns).page rest

@[simp] theorem after_nil (shape : Shape) : shape.after [] = shape := rfl

@[simp] theorem after_cons (shape : Shape) (turn : Turn) (rest : List Turn) :
    shape.after (turn :: rest) = (shape.execute turn.command).shape.after rest := rfl

theorem after_append (shape : Shape) (first second : List Turn) :
    shape.after (first ++ second) = (shape.after first).after second :=
  List.foldl_append

theorem visits_append (shape : Shape) (first second : List Turn) :
    shape.visits (first ++ second) = shape.visits first ++ (shape.after first).visits second := by
  induction first generalizing shape with
  | nil => rfl
  | cons turn rest ih => simp [visits, ih]

@[simp] theorem map_turn_visits (shape : Shape) (turns : List Turn) :
    (shape.visits turns).map Visit.turn = turns := by
  induction turns generalizing shape with
  | nil => rfl
  | cons turn rest ih => simp [visits, ih]

/-- A visit finds the shape after the turns before it. -/
theorem exists_of_mem_visits {shape : Shape} {turns : List Turn} {v : Visit}
    (h : v ∈ shape.visits turns) :
    ∃ before later, turns = before ++ v.turn :: later ∧ v.found = shape.after before := by
  induction turns generalizing shape with
  | nil => cases h
  | cons turn rest ih =>
      rcases List.mem_cons.1 h with rfl | h
      · exact ⟨[], rest, rfl, rfl⟩
      · obtain ⟨before, later, rfl, hfound⟩ := ih h
        exact ⟨turn :: before, later, rfl, hfound⟩

section Pages

variable (shape : Shape) (lines : List Line)

/-- The instructions and labels of a page are those of the visits. -/
theorem filter_isAssembled_page :
    (shape.page lines).filter TextLine.isAssembled =
      (shape.visits (lines.flatMap fun line => Turn.ofTokens line.number line.tokens)).flatMap
        fun v => v.emission.lines := by
  have hvisits (visits : List Visit) : (visits.flatMap Visit.lines).filter TextLine.isAssembled =
      visits.flatMap fun v => v.emission.lines := by
    rw [List.filter_flatMap]
    apply List.flatMap_congr
    intro v _
    rw [Visit.lines, List.filter_append, List.filter_eq_self.2, List.filter_eq_nil_iff.2,
      List.append_nil]
    · intro line hline
      obtain ⟨report, _, rfl⟩ := List.mem_map.1 hline
      exact Bool.false_ne_true
    · intro line hline
      have hcode := (v.found.extends_execute v.turn.command).lines line hline
      cases line with
      | code _ | label _ => rfl
      | source _ | report _ => exact hcode.elim
  induction lines generalizing shape with
  | nil => rfl
  | cons line rest ih =>
      have hsource : (if line.isEmpty then [] else [TextLine.source line]).filter
          TextLine.isAssembled = [] := by
        split <;> rfl
      simp only [page, List.filter_append, hsource, hvisits, ih, List.nil_append,
        List.flatMap_cons, visits_append, List.flatMap_append]

/-- The reports of a page are those of the visits. -/
theorem filterMap_report?_page :
    (shape.page lines).filterMap TextLine.report? =
      (shape.visits (lines.flatMap fun line => Turn.ofTokens line.number line.tokens)).filterMap
        Visit.report? := by
  have hvisits (visits : List Visit) : (visits.flatMap Visit.lines).filterMap TextLine.report? =
      visits.filterMap Visit.report? := by
    induction visits with
    | nil => rfl
    | cons v rest ih =>
        rw [List.flatMap_cons, List.filterMap_append, ih, Visit.lines, List.filterMap_append,
          Visit.emission, v.found.reports_execute, List.filterMap_cons]
        cases v.report? <;> rfl
  induction lines generalizing shape with
  | nil => rfl
  | cons line rest ih =>
      have hsource : (if line.isEmpty then [] else [TextLine.source line]).filterMap
          TextLine.report? = [] := by
        split <;> rfl
      simp only [page, List.filterMap_append, hsource, hvisits, ih, List.nil_append,
        List.flatMap_cons, visits_append, List.filterMap_append]

/-- A comment of a page that shows a line shows one of the page's. -/
theorem mem_of_source_mem_page {shape : Shape} {lines : List Line} {line : Line}
    (h : .source line ∈ shape.page lines) : line ∈ lines := by
  induction lines generalizing shape with
  | nil => cases h
  | cons first rest ih =>
      rcases List.mem_append.1 h with h | h
      · rcases List.mem_append.1 h with h | h
        · split at h
          · cases h
          · obtain rfl := TextLine.source.inj (List.mem_singleton.1 h)
            exact List.mem_cons_self
        · obtain ⟨v, _, h⟩ := List.mem_flatMap.1 h
          rcases List.mem_append.1 h with h | h
          · exact ((v.found.extends_execute v.turn.command).lines _ h).elim
          · obtain ⟨report, _, hreport⟩ := List.mem_map.1 h
            cases hreport
      · exact List.mem_cons_of_mem first (ih h)

end Pages

end Shape

section Compilation

variable {recover : Bool}

/-- A turn that does not end the compilation adds the lines of its visit. -/
theorem Draft.step_eq_visit {draft next : Draft} {turn : Turn}
    (h : draft.step recover turn.step = .ok next) :
    next.shape = (draft.shape.execute turn.command).shape ∧
      next.text.toList = draft.text.toList ++ Visit.lines ⟨draft.shape, turn⟩ := by
  change Draft.step recover draft ⟨turn.line, turn.token.column, turn.command⟩ = _ at h
  unfold Draft.step at h
  simp only at h
  simp only [Visit.lines, Visit.report?, Visit.emission]
  split at h
  · next hfault =>
      obtain rfl := Except.ok.inj h
      exact ⟨rfl, by simp [hfault]⟩
  · next fault hfault =>
      split at h
      · cases h
      · obtain rfl := Except.ok.inj h
        exact ⟨rfl, by simp [hfault]⟩

theorem Draft.steps_eq_visits {draft next : Draft} {turns : List Turn}
    (h : (turns.map Turn.step).foldlM (Draft.step recover) draft = .ok next) :
    next.shape = draft.shape.after turns ∧
      next.text.toList = draft.text.toList ++ (draft.shape.visits turns).flatMap Visit.lines := by
  induction turns generalizing draft with
  | nil =>
      obtain rfl := Except.ok.inj h
      exact ⟨rfl, (List.append_nil _).symm⟩
  | cons turn rest ih =>
      rw [List.map_cons, List.foldlM_cons] at h
      cases hmiddle : Draft.step recover draft turn.step with
      | error report =>
          rw [hmiddle] at h
          cases h
      | ok middle =>
          rw [hmiddle] at h
          obtain ⟨hshape, htext⟩ := step_eq_visit hmiddle
          obtain ⟨hafter, hlater⟩ := ih h
          rw [hshape] at hafter hlater
          refine ⟨hafter, ?_⟩
          rw [hlater, htext, List.append_assoc]
          rfl

theorem Draft.line_eq_visits {draft next : Draft} {line : Line}
    (h : draft.line recover line = .ok next) :
    next.shape = draft.shape.after (Turn.ofTokens line.number line.tokens) ∧
      next.text.toList = draft.text.toList ++ ((if line.isEmpty then [] else [.source line]) ++
        (draft.shape.visits (Turn.ofTokens line.number line.tokens)).flatMap Visit.lines) := by
  unfold Draft.line at h
  split at h
  · next hempty =>
      obtain rfl := Except.ok.inj h
      rw [if_pos hempty, List.isEmpty_iff.1 hempty]
      exact ⟨rfl, (List.append_nil _).symm⟩
  · next htokens =>
      rw [Turn.steps_eq_map line.number line.tokens] at h
      obtain ⟨hshape, htext⟩ := steps_eq_visits h
      refine ⟨hshape, ?_⟩
      rw [htext, if_neg htokens, Array.toList_push, List.append_assoc]

theorem Draft.lines_eq_page {draft next : Draft} {lines : List Line}
    (h : lines.foldlM (Draft.line recover) draft = .ok next) :
    next.shape = draft.shape.after
        (lines.flatMap fun line => Turn.ofTokens line.number line.tokens) ∧
      next.text.toList = draft.text.toList ++ draft.shape.page lines := by
  induction lines generalizing draft with
  | nil =>
      obtain rfl := Except.ok.inj h
      exact ⟨rfl, (List.append_nil _).symm⟩
  | cons line rest ih =>
      rw [List.foldlM_cons] at h
      cases hmiddle : Draft.line recover draft line with
      | error report =>
          rw [hmiddle] at h
          cases h
      | ok middle =>
          rw [hmiddle] at h
          obtain ⟨hshape, htext⟩ := line_eq_visits hmiddle
          obtain ⟨hafter, hlater⟩ := ih h
          rw [hshape] at hafter hlater
          constructor
          · rw [hafter, List.flatMap_cons, Shape.after_append]
          · rw [hlater, htext, List.append_assoc]
            rfl

variable {source : String} {listing : Listing}

/-- A listing is the page of its source, with the names and variables of the last shape. -/
theorem compile_eq_page (h : compile recover source = .ok listing) :
    listing.text = Shape.empty.page (Line.ofSource source) ∧
      listing.names = (Shape.empty.after (Turn.ofSource source)).names ∧
      listing.vars = (Shape.empty.after (Turn.ofSource source)).vars := by
  unfold compile at h
  cases hdraft : (Line.ofSource source).foldlM (Draft.line recover) Draft.empty with
  | error report =>
      rw [hdraft] at h
      cases h
  | ok draft =>
      rw [hdraft] at h
      obtain rfl := Except.ok.inj h
      obtain ⟨hshape, htext⟩ := Draft.lines_eq_page hdraft
      exact ⟨htext, congrArg Shape.names hshape, congrArg Shape.vars hshape⟩

/-- The instructions and labels of a listing, visit by visit. -/
theorem assembled_eq_visits (h : compile recover source = .ok listing) :
    listing.assembled =
      (Shape.empty.visits (Turn.ofSource source)).flatMap fun v => v.emission.lines := by
  rw [Listing.assembled, (compile_eq_page h).1, Shape.filter_isAssembled_page]
  rfl

end Compilation

section Errors

variable {recover : Bool}

/-- What every step keeps is kept by a fold. -/
theorem keeps_foldlM {α β ε : Type} {keeps : α → Prop} {step : α → β → Except ε α}
    (hstep : ∀ result item next, keeps result → step result item = .ok next → keeps next)
    {items : List β} {result last : α} (h : keeps result)
    (hlast : items.foldlM step result = .ok last) : keeps last := by
  induction items generalizing result with
  | nil =>
      obtain rfl := Except.ok.inj hlast
      exact h
  | cons item rest ih =>
      rw [List.foldlM_cons] at hlast
      cases hnext : step result item with
      | error stop =>
          rw [hnext] at hlast
          cases hlast
      | ok next =>
          rw [hnext] at hlast
          exact ih (hstep result item next h hnext) hlast

/-- The errors of a draft are what its lines report. -/
def Draft.TellsErrors (draft : Draft) : Prop :=
  draft.errors.toList = draft.text.toList.filterMap TextLine.report?

/-- A step that adds an error adds its report below its code, which reports nothing. -/
theorem Draft.TellsErrors.step {draft next : Draft} {step : Step} (h : draft.TellsErrors)
    (hnext : draft.step recover step = .ok next) : next.TellsErrors := by
  have hcode := draft.shape.reports_execute step.command
  unfold Draft.step at hnext
  simp only at hnext
  rw [TellsErrors] at h ⊢
  split at hnext
  · obtain rfl := Except.ok.inj hnext
    rw [Array.toList_appendList, List.filterMap_append, hcode, List.append_nil]
    exact h
  · split at hnext
    · cases hnext
    · obtain rfl := Except.ok.inj hnext
      rw [Array.toList_push, Array.toList_push, Array.toList_appendList, List.filterMap_append,
        List.filterMap_append, hcode, List.append_nil, h]
      rfl

theorem Draft.TellsErrors.line {draft next : Draft} {line : Line} (h : draft.TellsErrors)
    (hnext : draft.line recover line = .ok next) : next.TellsErrors := by
  unfold Draft.line at hnext
  split at hnext
  · obtain rfl := Except.ok.inj hnext
    exact h
  · refine keeps_foldlM (fun _ _ _ hkept hstep => hkept.step hstep) ?_ hnext
    rw [TellsErrors, Array.toList_push, List.filterMap_append]
    exact h.trans (List.append_nil _).symm

variable {source : String} {listing : Listing}

/-- The errors of a listing are what its lines report. -/
theorem errors_eq_reports (h : compile recover source = .ok listing) :
    listing.errors = listing.text.filterMap TextLine.report? := by
  unfold compile at h
  cases hdraft : (Line.ofSource source).foldlM (Draft.line recover) Draft.empty with
  | error report =>
      rw [hdraft] at h
      cases h
  | ok draft =>
      rw [hdraft] at h
      obtain rfl := Except.ok.inj h
      have hempty : Draft.empty.TellsErrors := rfl
      have htells : draft.TellsErrors :=
        keeps_foldlM (fun _ _ _ hkept hline => hkept.line hline) hempty hdraft
      exact htells

/-- The errors of a listing, visit by visit. -/
theorem errors_eq_visits (h : compile recover source = .ok listing) :
    listing.errors = (Shape.empty.visits (Turn.ofSource source)).filterMap Visit.report? := by
  rw [errors_eq_reports h, (compile_eq_page h).1, Shape.filterMap_report?_page]
  rfl

end Errors

section Matching

/-- A visit is of the turn that is dispatched, and its shape describes the state found there. -/
structure Visit.Describes (v : Visit) (d : Dispatch) : Prop where
  turn : v.turn = d.turn
  found : v.found.Describes d.found

/-- As long as a run goes on, visits match dispatches. -/
theorem Shape.visits_describe {shape : Shape} {session after : Session} {turns : List Turn}
    (h : shape.Describes session.state)
    (hrun : session.takeAll (turns.map Turn.step) = (after, none)) :
    List.Forall₂ Visit.Describes (shape.visits turns) (session.dispatches turns) := by
  induction turns generalizing shape session with
  | nil => exact .nil
  | cons turn rest ih =>
      rw [Session.dispatches_cons]
      rw [List.map_cons, Session.takeAll] at hrun
      cases hresult : session.take turn.step with
      | mk next fatal =>
          rw [hresult] at hrun
          cases fatal with
          | some fatal => cases hrun
          | none =>
              -- The next turn finds the state that the command leaves, and its shape.
              refine List.Forall₂.cons ⟨rfl, h⟩ (ih ?_ hrun)
              rw [(Session.take_eq_none hresult).1]
              exact (h.execute turn.command).shape

/-- So the visits of a source match the dispatches of a new session that runs it. -/
theorem visits_describe_dispatches (options : Options) {source : String} {listing : Listing}
    (h : compile options.recover source = .ok listing) :
    List.Forall₂ Visit.Describes (Shape.empty.visits (Turn.ofSource source))
      ((Session.new options).dispatches (Turn.ofSource source)) := by
  have hnone : ((Session.new options).execute source).2 = none := by
    rcases compile_cases options source with ⟨_, _, hnone, _⟩ | ⟨fatal, hfatal, _⟩
    · exact hnone
    · rw [h] at hfatal
      cases hfatal
  apply Shape.visits_describe Shape.empty_describes
  rw [Turn.ofSource_map_step, ← Session.execute_new, ← hnone]

end Matching

section Names

/-- The names in a command are identifiers, since they stand in the source. -/
theorem alike_command_of_mem {source : String} {turn : Turn} (h : turn ∈ Turn.ofSource source) :
    turn.command.Alike .ofIdentifiers turn.command := by
  obtain ⟨line, hline, hturn⟩ := List.mem_flatMap.1 h
  have hlines := List.forall₂_same.1 (Line.alike_ofIdentifiers source) line hline
  have hsteps := hlines.steps
  rw [Turn.steps_eq_map line.number line.tokens] at hsteps
  exact (List.forall₂_same.1 hsteps _ (List.mem_map_of_mem hturn)).command

/-- So all names that a visit knows are identifiers. -/
theorem Shape.alike_of_mem_visits {l : Likeness} {shape : Shape} {turns : List Turn} {v : Visit}
    (hshape : shape.Alike l shape) (hturns : ∀ turn ∈ turns, turn.command.Alike l turn.command)
    (h : v ∈ shape.visits turns) :
    v.found.Alike l v.found ∧ v.turn.command.Alike l v.turn.command := by
  induction turns generalizing shape with
  | nil => cases h
  | cons turn rest ih =>
      have hturn := hturns turn List.mem_cons_self
      rcases List.mem_cons.1 h with rfl | h
      · exact ⟨hshape, hturn⟩
      · apply ih (hshape.execute hturn).shape _ h
        exact fun later hlater => hturns later (List.mem_cons_of_mem turn hlater)

end Names

end Assembly

end StraightForth
