import StraightForth.Invocation
import StraightForth.Proofs.Description
import Mathlib.Data.List.Forall2

/-!
# Compiling foretells running

The compiler and a session take the steps of a source side by side. A relation between drafts
and sessions that each step keeps holds at the end as well, unless a fatal fault ends both.
The main statement is that the listing reports what a run reports, place by place and word by
word, except for the value of an integer that stands where a variable is named.
-/

namespace StraightForth

open Assembly

section SideBySide

/-- Both sides end with related results, or both end with the same fatal diagnostic. -/
def Agree (related : Draft → Session → Prop) :
    Except Diagnostic Draft → Session × Option Diagnostic → Prop
  | .ok draft, (session, none) => related draft session
  | .error early, (_, some late) => early = late
  | _, _ => False

variable {recover : Bool} {related : Draft → Session → Prop}

/-- Agreement is passed on to whatever both sides do next. -/
theorem Agree.bind {compiled : Except Diagnostic Draft} {run : Session × Option Diagnostic}
    {next : Draft → Except Diagnostic Draft} {goOn : Session → Session × Option Diagnostic}
    (hnext : ∀ draft session, related draft session → Agree related (next draft) (goOn session)) :
    Agree related compiled run →
      Agree related (compiled >>= next)
        (match run with
          | (after, none) => goOn after
          | (after, some fatal) => (after, some fatal)) := by
  intro h
  obtain ⟨session, _ | late⟩ := run
  · cases compiled with
    | error early => exact h.elim
    | ok draft => exact hnext draft session h
  · cases compiled with
    | error early => exact h
    | ok draft => exact h.elim

theorem agree_steps {steps : List Step}
    (hstep : ∀ step ∈ steps, ∀ draft session, related draft session →
      Agree related (draft.step recover step) (session.take step))
    {draft : Draft} {session : Session} (h : related draft session) :
    Agree related (steps.foldlM (Draft.step recover) draft) (session.takeAll steps) := by
  induction steps generalizing draft session with
  | nil => exact h
  | cons step rest ih =>
      rw [List.foldlM_cons, Session.takeAll]
      have hfirst := hstep step List.mem_cons_self draft session h
      refine Agree.bind ?_ hfirst
      intro draft session h
      exact ih (fun step hmem => hstep step (List.mem_cons_of_mem _ hmem)) h

/-- A line without tokens has no steps. -/
theorem Line.steps_of_isEmpty {line : Line} (h : line.isEmpty = true) : line.steps = [] := by
  rw [Line.steps, List.isEmpty_iff.1 h]
  rfl

theorem agree_lines (lines : List Line)
    (hsource : ∀ (draft : Draft) (session : Session) (line : Line), related draft session →
      related { draft with text := draft.text.push (.source line) } session)
    (hstep : ∀ line ∈ lines, ∀ step ∈ line.steps, ∀ draft session, related draft session →
      Agree related (draft.step recover step) (session.take step))
    {draft : Draft} {session : Session} (h : related draft session) :
    Agree related (lines.foldlM (Draft.line recover) draft)
      (session.takeAll (lines.flatMap Line.steps)) := by
  induction lines generalizing draft session with
  | nil => exact h
  | cons line rest ih =>
      rw [List.foldlM_cons, List.flatMap_cons, Session.takeAll_append]
      have hline : Agree related (draft.line recover line) (session.takeAll line.steps) := by
        simp only [Draft.line]
        split
        · next hempty =>
            rw [Line.steps_of_isEmpty hempty]
            exact h
        · exact agree_steps (hstep line List.mem_cons_self) (hsource draft session line h)
      refine Agree.bind ?_ hline
      intro draft session h
      exact ih (fun line hmem => hstep line (List.mem_cons_of_mem _ hmem)) h

/-- A source is compiled from nothing and run in a new session. -/
theorem agree_execute (options : Options) (source : String)
    (hsource : ∀ (draft : Draft) (session : Session) (line : Line), related draft session →
      related { draft with text := draft.text.push (.source line) } session)
    (hstep : ∀ line ∈ Line.ofSource source, ∀ step ∈ line.steps, ∀ draft session,
      related draft session → Agree related (draft.step recover step) (session.take step))
    (h : related Draft.empty (Session.new options)) :
    Agree related ((Line.ofSource source).foldlM (Draft.line recover) Draft.empty)
      ((Session.new options).execute source) := by
  rw [Session.execute_new]
  exact agree_lines (Line.ofSource source) hsource hstep h

end SideBySide

namespace Diagnostic

/-- The diagnostic tells the value of an integer that stands where a variable is named. -/
def TellsInteger (d : Diagnostic) : Prop :=
  d.kind = .invalidName ∧
    ∃ value : Int32, d.message = Decimal.text value.toInt ++ " is not a variable name"

/-- What is reported before the run stands for a report of the run: it is the same report, but
for a value that only the run can tell. -/
structure Foretells (early late : Diagnostic) : Prop where
  kind : early.kind = late.kind
  line : early.line = late.line
  column : early.column = late.column
  message : ¬ late.TellsInteger → early.message = late.message
  hidden : late.TellsInteger → early.message = "an integer is not a variable name"

/-- A diagnostic without a value stands for itself. -/
theorem foretells_refl {d : Diagnostic} (h : ¬ d.TellsInteger) : d.Foretells d :=
  ⟨rfl, rfl, rfl, fun _ => rfl, fun tells => (h tells).elim⟩

theorem not_tellsInteger_of_isFatal {d : Diagnostic} (h : d.isFatal = true) :
    ¬ d.TellsInteger := by
  intro tells
  have hkind : DiagnosticKind.typeMismatch = .invalidName :=
    (of_decide_eq_true h : d.kind = .typeMismatch).symm.trans tells.1
  cases hkind

/-- Only itself stands for a fatal diagnostic. -/
theorem Foretells.eq_of_isFatal {early late : Diagnostic} (h : early.Foretells late)
    (hfatal : late.isFatal = true) : early = late := by
  have htells := not_tellsInteger_of_isFatal hfatal
  obtain ⟨kind, line, column, message⟩ := early
  obtain ⟨rfl, rfl, rfl, hmessage, _⟩ := h
  rw [show message = late.message from hmessage htells]

end Diagnostic

namespace Fault

/-- The two wordings about names end differently. -/
theorem valid_name_message_ne (left right : String) :
    left ++ " is not a valid variable name" ≠ right ++ " is not a variable name" := by
  intro h
  have hlist := congrArg String.toList h
  rw [String.toList_append, String.toList_append] at hlist
  have hshort : " is not a variable name".toList <:+
      left.toList ++ " is not a valid variable name".toList := ⟨right.toList, hlist.symm⟩
  have hlong : " is not a valid variable name".toList <:+
      left.toList ++ " is not a valid variable name".toList := List.suffix_append _ _
  have hsuffix := List.suffix_of_suffix_length_le hshort hlong (by decide)
  revert hsuffix
  decide

@[simp] theorem kind_forgetValue (fault : Fault) : fault.forgetValue.kind = fault.kind := by
  cases fault <;> rfl

@[simp] theorem ownColumn_forgetValue (fault : Fault) :
    fault.forgetValue.ownColumn = fault.ownColumn := by
  cases fault <;> rfl

/-- A fault without a value reports the same before the run and in it. -/
theorem forgetValue_foretells (fault : Fault) (line : Nat) (column : Span) :
    (fault.forgetValue.reportAt line column).Foretells (fault.reportAt line column) := by
  rw [reportAt_eq, reportAt_eq, kind_forgetValue, ownColumn_forgetValue]
  refine ⟨rfl, rfl, rfl, ?_, ?_⟩
  · intro silent
    cases fault with
    | notAName value =>
        cases value with
        | none => rfl
        | some value => exact (silent ⟨rfl, value, rfl⟩).elim
    | _ => rfl
  · rintro ⟨hkind, value, hmessage⟩
    cases fault with
    | notAName _ => rfl
    | nameReserved token column => exact (valid_name_message_ne _ _ hmessage).elim
    | _ => cases hkind

end Fault

/-- The diagnostics in the queue of a session. -/
def Session.diagnostics (session : Session) : List Diagnostic :=
  session.events.toList.filterMap Event.report?

/-- A draft foretells a session when its shape describes the state and its errors stand for
the diagnostics so far. -/
structure Assembly.Draft.Foretells (recover : Bool) (draft : Draft) (session : Session) :
    Prop where
  recover : session.options.recover = recover
  shape : draft.shape.Describes session.state
  errors : List.Forall₂ Diagnostic.Foretells draft.errors.toList session.diagnostics

namespace Assembly.Draft.Foretells

variable {recover : Bool} {draft : Draft} {session : Session}

theorem source (h : draft.Foretells recover session) (line : Line) :
    Foretells recover { draft with text := draft.text.push (.source line) } session :=
  ⟨h.recover, h.shape, h.errors⟩

/-- A step leaves both sides related, or it ends both with one fatal diagnostic. -/
theorem step (h : draft.Foretells recover session) (step : Step) :
    Agree (Foretells recover) (draft.step recover step) (session.take step) := by
  have hcommand := h.shape.execute step.command
  simp only [Draft.step, Session.take]
  generalize draft.shape.execute step.command = emission at hcommand
  generalize session.state.execute step.command = effect at hcommand
  obtain ⟨shape, lines, fault⟩ := emission
  obtain ⟨state, outcome⟩ := effect
  obtain ⟨hshape, rfl⟩ := hcommand
  have herrors := h.errors
  simp only [Session.diagnostics] at herrors
  cases outcome with
  | done =>
      exact ⟨h.recover, hshape, herrors⟩
  | printed text =>
      refine ⟨h.recover, hshape, ?_⟩
      simpa [Session.diagnostics, Session.queue, Event.report?, List.filterMap_cons] using herrors
  | abandoned fault =>
      have hreport := fault.forgetValue_foretells step.line step.column
      have hfatal : (fault.forgetValue.reportAt step.line step.column).isFatal =
          (fault.reportAt step.line step.column).isFatal := by
        simp [Diagnostic.isFatal, hreport.kind]
      simp only [Outcome.fault?, Option.map_some, h.recover, hfatal]
      by_cases hends : (fault.reportAt step.line step.column).isFatal && !recover
      · rw [if_pos hends, if_pos hends]
        exact hreport.eq_of_isFatal (Bool.and_eq_true_iff.1 hends).1
      · rw [if_neg hends, if_neg hends]
        refine ⟨h.recover, hshape, ?_⟩
        simpa [Session.diagnostics, Session.queue, Event.report?, List.filterMap_cons] using
          List.rel_append herrors (.cons hreport .nil)

end Assembly.Draft.Foretells

/-- Compiling and running a source in a new session agree on the diagnostics. -/
theorem agree_foretells (options : Options) (source : String) :
    Agree (Draft.Foretells options.recover)
      ((Line.ofSource source).foldlM (Draft.line options.recover) Draft.empty)
      ((Session.new options).execute source) :=
  agree_execute options source (fun _ _ line h => h.source line)
    (fun _ _ step _ _ _ h => h.step step) ⟨rfl, Shape.empty_describes, .nil⟩

/-- Either compiling and running both come to their end, and the reports stand for the
diagnostics, or one fatal diagnostic ends both. -/
theorem compile_cases (options : Options) (source : String) :
    (∃ listing, compile options.recover source = .ok listing ∧
      ((Session.new options).execute source).2 = none ∧
      List.Forall₂ Diagnostic.Foretells listing.errors
        ((Session.new options).execute source).1.diagnostics) ∨
    ∃ fatal, compile options.recover source = .error fatal ∧
      ((Session.new options).execute source).2 = some fatal := by
  have hagree := agree_foretells options source
  simp only [compile]
  generalize (Line.ofSource source).foldlM (Draft.line options.recover) Draft.empty = compiled
    at hagree
  generalize (Session.new options).execute source = run at hagree
  obtain ⟨session, _ | fatal⟩ := run
  · cases compiled with
    | error early => exact hagree.elim
    | ok draft => exact .inl ⟨draft.listing, rfl, rfl, hagree.errors⟩
  · cases compiled with
    | error early => exact .inr ⟨early, rfl, congrArg some hagree.symm⟩
    | ok draft => exact hagree.elim

/-- Compiling foretells every fault of a run: the same fatal diagnostic ends both, and when
none does, the listing reports the diagnostics of the run in their order. -/
theorem compile_foretells_execute (options : Options) (source : String) :
    let run := (Session.new options).execute source
    (∀ fatal, compile options.recover source = .error fatal ↔ run.2 = some fatal) ∧
      ∀ listing, compile options.recover source = .ok listing →
        List.Forall₂ Diagnostic.Foretells listing.errors run.1.diagnostics := by
  intro run
  rcases compile_cases options source with ⟨listing, hcompile, hrun, hreports⟩ |
    ⟨fatal, hcompile, hrun⟩
  · constructor
    · intro fatal
      simp [run, hcompile, hrun]
    · intro other hother
      obtain rfl : listing = other := by simpa [hcompile] using hother
      exact hreports
  · constructor
    · intro other
      simp [run, hcompile, hrun]
    · intro listing hlisting
      simp [hcompile] at hlisting

end StraightForth
