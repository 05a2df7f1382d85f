import StraightForth.Proofs.Lockstep

/-!
# What depends on columns

A column gets into a diagnostic and nowhere else. So lines with the same numbers and tokens run
alike and are compiled alike wherever their tokens stand: all that differs are the columns of
the diagnostics. The main statements say this of runs and of listings.
-/

namespace StraightForth

section Forgetting

/-- The same thing at an unknown place. -/
def Located.forgetColumn {α : Type} (located : Located α) : Located α :=
  ⟨Span.unset, located.item⟩

/-- The line without the columns of its tokens. -/
def Line.forgetColumns (line : Line) : Line :=
  ⟨line.number, line.tokens.map Located.forgetColumn⟩

/-- The diagnostic without its column. -/
def Diagnostic.forgetColumn (report : Diagnostic) : Diagnostic :=
  { report with column := Span.unset }

/-- The event without its column, if it has one. -/
def Event.forgetColumn : Event → Event
  | .print text => .print text
  | .diagnostic report => .diagnostic report.forgetColumn

/-- The command without the column that a bad declaration keeps. -/
def Command.forgetColumn : Command → Command
  | .declareReserved token _ => .declareReserved token Span.unset
  | command => command

/-- The step without all columns. -/
def Step.forgetColumn (step : Step) : Step :=
  ⟨step.line, Span.unset, step.command.forgetColumn⟩

/-- Two lines of listings have the same text, or they report diagnostics that are the same but
for their columns. -/
inductive Assembly.TextLine.SameButColumn : TextLine → TextLine → Prop
  | text {line other : TextLine} (h : line.text = other.text) : SameButColumn line other
  | report {report report' : Diagnostic} (h : report.forgetColumn = report'.forgetColumn) :
      SameButColumn (.report report) (.report report')

end Forgetting

namespace Diagnostic

variable {report other : Diagnostic}

theorem isFatal_eq_of_forgetColumn (h : report.forgetColumn = other.forgetColumn) :
    report.isFatal = other.isFatal := by
  calc
    report.isFatal = report.forgetColumn.isFatal := rfl
    _ = other.forgetColumn.isFatal := congrArg isFatal h
    _ = other.isFatal := rfl

end Diagnostic

theorem Event.isFatal_eq_of_forgetColumn {event other : Event}
    (h : event.forgetColumn = other.forgetColumn) : event.isFatal = other.isFatal := by
  cases event with
  | print text => cases other with
    | print text' => rfl
    | diagnostic report' => cases h
  | diagnostic report => cases other with
    | print text' => cases h
    | diagnostic report' => exact Diagnostic.isFatal_eq_of_forgetColumn (diagnostic.inj h)

/-- Apart from its column, the report of a fault depends on the fault and the line only. -/
theorem Fault.forgetColumn_reportAt (fault : Fault) (line : Nat) (column : Span) :
    (fault.reportAt line column).forgetColumn =
      ⟨fault.kind, some line, Span.unset, fault.message⟩ := by
  rw [reportAt_eq]
  rfl

namespace Line

@[simp] theorem isEmpty_forgetColumns (line : Line) :
    line.forgetColumns.isEmpty = line.isEmpty :=
  List.isEmpty_map

/-- Columns play no part in how a line is written. -/
@[simp] theorem text_forgetColumns (line : Line) : line.forgetColumns.text = line.text := by
  simp only [text, forgetColumns, List.map_map]
  rfl

end Line

namespace Command

/-- The commands of a line depend on its tokens and not on their columns. -/
theorem ofTokens_forgetColumn (tokens : List (Located Token)) :
    ofTokens (tokens.map Located.forgetColumn) =
      (ofTokens tokens).map fun command => ⟨Span.unset, command.item.forgetColumn⟩ := by
  fun_induction ofTokens tokens with
  | case1 => rfl
  | case2 token rest value hitem ih =>
      rw [List.map_cons, ofTokens.eq_def]
      simp [Located.forgetColumn, hitem, ih, forgetColumn]
  | case3 token rest name hitem ih =>
      rw [List.map_cons, ofTokens.eq_def]
      simp [Located.forgetColumn, hitem, ih, forgetColumn]
  | case4 token rest word hitem primitive hprimitive ih =>
      rw [List.map_cons, ofTokens.eq_def]
      simp [Located.forgetColumn, hitem, hprimitive, ih, forgetColumn]
  | case5 token word hitem hprimitive =>
      rw [List.map_cons, ofTokens.eq_def]
      simp [Located.forgetColumn, hitem, hprimitive, forgetColumn]
  | case6 token word hitem hprimitive target rest ih =>
      have htarget : declaration target.forgetColumn = (declaration target).forgetColumn := by
        simp only [declaration, Located.forgetColumn]
        split <;> rfl
      rw [List.map_cons, ofTokens.eq_def]
      simp [Located.forgetColumn, hitem, hprimitive, ih, ← htarget]

/-- Commands that are the same but for their columns are the same, or are declarations of the
same token that is no name. -/
theorem eq_or_declareReserved {command other : Command}
    (h : command.forgetColumn = other.forgetColumn) :
    command = other ∨ ∃ token column column',
      command = .declareReserved token column ∧ other = .declareReserved token column' := by
  cases command <;> cases other <;> simp_all [forgetColumn]

end Command

theorem Line.steps_forgetColumns (line : Line) :
    line.forgetColumns.steps = line.steps.map Step.forgetColumn := by
  simp only [steps, forgetColumns, Command.ofTokens_forgetColumn, List.map_map]
  rfl

namespace Step

variable {step other : Step}

/-- Commands that are the same but for their columns have the same effect on a state, so their
steps raise alike events if only the reports of faults of the same wording are alike. -/
theorem corresponds_of_command {alike : Event → Event → Prop}
    (h : step.command.forgetColumn = other.command.forgetColumn)
    (hprint : ∀ text, alike (.print text) (.print text))
    (hreport : ∀ fault fault' : Fault, fault.kind = fault'.kind → fault.message = fault'.message →
      alike (.diagnostic (fault.reportAt step.line step.column))
        (.diagnostic (fault'.reportAt other.line other.column))) :
    step.Corresponds Eq alike other := by
  rintro s _ rfl
  rcases Command.eq_or_declareReserved h with
    hsame | ⟨token, column, column', hcommand, hcommand'⟩
  · rw [hsame]
    refine ⟨rfl, ?_⟩
    cases (s.execute other.command).2 with
    | done => exact .none
    | printed text => exact .some (hprint text)
    | abandoned fault => exact .some (hreport fault fault rfl rfl)
  · rw [hcommand, hcommand']
    exact ⟨rfl, .some (hreport _ _ rfl rfl)⟩

/-- Faults of the same wording have the same report but for the column, wherever on a line they
happen. -/
theorem forgetColumn_reportAt (h : step.forgetColumn = other.forgetColumn) {fault fault' : Fault}
    (hkind : fault.kind = fault'.kind) (hmessage : fault.message = fault'.message) :
    (fault.reportAt step.line step.column).forgetColumn =
      (fault'.reportAt other.line other.column).forgetColumn := by
  have hline : step.line = other.line := (Step.mk.inj h).1
  rw [Fault.forgetColumn_reportAt, Fault.forgetColumn_reportAt, hkind, hmessage, hline]

/-- Steps that are the same but for their columns do the same, and raise the same events but
for their columns. -/
theorem corresponds_of_forgetColumn (h : step.forgetColumn = other.forgetColumn) :
    step.Corresponds Eq (fun event event' => event.forgetColumn = event'.forgetColumn) other := by
  apply corresponds_of_command (Step.mk.inj h).2.2
  · intro text
    rfl
  · intro fault fault' hkind hmessage
    exact congrArg Event.diagnostic (forgetColumn_reportAt h hkind hmessage)

end Step

/-- Commands that are the same but for their columns are compiled to the same code, and are
abandoned for faults of the same wording. -/
theorem Assembly.Shape.execute_of_forgetColumn {command other : Command}
    (h : command.forgetColumn = other.forgetColumn) (shape : Shape) :
    (shape.execute command).shape = (shape.execute other).shape ∧
      (shape.execute command).lines = (shape.execute other).lines ∧
      Option.Rel (fun fault fault' => fault.kind = fault'.kind ∧ fault.message = fault'.message)
        (shape.execute command).fault (shape.execute other).fault := by
  rcases Command.eq_or_declareReserved h with hsame | ⟨token, column, column', rfl, rfl⟩
  · rw [hsame]
    refine ⟨rfl, rfl, ?_⟩
    cases (shape.execute other).fault with
    | none => exact .none
    | some fault => exact .some ⟨rfl, rfl⟩
  · exact ⟨rfl, rfl, .some ⟨rfl, rfl⟩⟩

/-- Steps that are the same but for their columns are compiled to the same code. -/
theorem Step.resembles_of_forgetColumn {step other : Step}
    (h : step.forgetColumn = other.forgetColumn) :
    step.Resembles Eq Assembly.TextLine.SameButColumn
      (fun report report' => report.forgetColumn = report'.forgetColumn) other := by
  rintro s _ rfl
  obtain ⟨hshape, hlines, hfault⟩ := s.execute_of_forgetColumn (Step.mk.inj h).2.2
  refine ⟨hshape, ?_, ?_⟩
  · rw [hlines]
    exact List.forall₂_same.2 fun line _ => .text rfl
  · generalize (s.execute step.command).fault = fault at hfault ⊢
    generalize (s.execute other.command).fault = fault' at hfault ⊢
    cases hfault with
    | none => exact .none
    | some hwording => exact .some (forgetColumn_reportAt h hwording.1 hwording.2)

/-- Lists agree after a map exactly when they do item by item. -/
theorem forall₂_iff_map_eq {α β : Type} {f : α → β} {items others : List α} :
    List.Forall₂ (fun item other => f item = f other) items others ↔
      items.map f = others.map f := by
  rw [← List.forall₂_eq_eq_eq, List.forall₂_map_left_iff, List.forall₂_map_right_iff]

theorem Line.resembles_of_forgetColumns {line other : Line}
    (h : line.forgetColumns = other.forgetColumns) :
    line.Resembles Eq Assembly.TextLine.SameButColumn
      (fun report report' => report.forgetColumn = report'.forgetColumn) other := by
  have hnumber : line.number = other.number := (Line.mk.inj h).1
  refine ⟨?_, .text ?_, ?_⟩
  · rw [← isEmpty_forgetColumns, h, isEmpty_forgetColumns]
  · rw [Assembly.TextLine.text, Assembly.TextLine.text, hnumber, ← text_forgetColumns, h,
      text_forgetColumns]
  · have hsteps := congrArg Line.steps h
    rw [steps_forgetColumns, steps_forgetColumns] at hsteps
    exact (forall₂_iff_map_eq.2 hsteps).imp fun _ _ => Step.resembles_of_forgetColumn

section Texts

variable {source source' : String}

theorem Step.map_forgetColumn_ofSource (source : String) :
    (ofSource source).map forgetColumn =
      ((Line.ofSource source).map Line.forgetColumns).flatMap Line.steps := by
  rw [ofSource, List.map_flatMap, List.flatMap_map]
  simp only [Line.steps_forgetColumns]

/-- Texts with the same lines but for the columns run alike from the same session. -/
theorem Session.parallel_of_forgetColumns
    (h : (Line.ofSource source).map Line.forgetColumns =
      (Line.ofSource source').map Line.forgetColumns) (session : Session) :
    Parallel Eq (fun event event' => event.forgetColumn = event'.forgetColumn)
      session.events.toList session.events.toList (session.execute source)
      (session.execute source') := by
  have hsteps : (Step.ofSource source).map Step.forgetColumn =
      (Step.ofSource source').map Step.forgetColumn := by
    rw [Step.map_forgetColumn_ofSource, h, Step.map_forgetColumn_ofSource]
  refine parallel_execute (fun _ _ => Event.isFatal_eq_of_forgetColumn) rfl rfl rfl ?_
  exact (forall₂_iff_map_eq.2 hsteps).imp fun _ _ => Step.corresponds_of_forgetColumn

/-- Texts with the same lines but for the columns are compiled alike. -/
theorem Assembly.both_compile_of_forgetColumns
    (h : (Line.ofSource source).map Line.forgetColumns =
      (Line.ofSource source').map Line.forgetColumns) (recover : Bool) :
    Both (fun listing listing' => listing.names = listing'.names ∧ listing.vars = listing'.vars ∧
        List.Forall₂ TextLine.SameButColumn listing.text listing'.text ∧
        listing.errors.map Diagnostic.forgetColumn = listing'.errors.map Diagnostic.forgetColumn)
      (fun report report' => report.forgetColumn = report'.forgetColumn)
      (compile recover source) (compile recover source') := by
  have hlines := (forall₂_iff_map_eq.2 h).imp fun _ _ => Line.resembles_of_forgetColumns
  have hdrafts := both_drafts (fun _ _ => Diagnostic.isFatal_eq_of_forgetColumn)
    (fun _ _ => TextLine.SameButColumn.report) rfl recover hlines
  refine hdrafts.map fun draft draft' hdraft => ?_
  exact ⟨congrArg Shape.names hdraft.shape, congrArg Shape.vars hdraft.shape, hdraft.text,
    forall₂_iff_map_eq.1 hdraft.errors⟩

end Texts

end StraightForth
