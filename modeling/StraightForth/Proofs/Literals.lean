import StraightForth.Proofs.Likeness.Listings
import StraightForth.Proofs.Likeness.Runs

/-!
# What does not depend on integers

No integer decides what a program does next. Texts that differ in the values of their literals
run alike: what is printed may be different, and so may be the integers that are left, but not
how much is printed, what is reported, where names lie on the stack and which variables there
are. The main statement says this of runs and of listings, in which only the pushed integers
are different.
-/

namespace StraightForth

section Forgetting

/-- The token without its value, if it is a literal. -/
def Token.forgetValue : Token → Token
  | .literal _ => .literal 0
  | token => token

/-- The line without the values of its literals, and without columns. -/
def Line.forgetValues (line : Line) : Line :=
  ⟨line.number, line.tokens.map fun token => ⟨Span.unset, token.item.forgetValue⟩⟩

/-- The diagnostic without what may name an integer, and without its column. -/
def Diagnostic.forgetValue (report : Diagnostic) : Diagnostic :=
  ⟨report.kind, report.line, Span.unset,
    if report.kind = .invalidName then "" else report.message⟩

/-- The kind of the event, and for a diagnostic what it says whatever the integers are. -/
def Event.forgetValue : Event → Event
  | .print _ => .print ""
  | .diagnostic report => .diagnostic report.forgetValue

/-- The line of a listing without the integer that it pushes, if it does. -/
def Assembly.TextLine.forgetValue : TextLine → TextLine
  | .code (.pushInt _) => .code (.pushInt 0)
  | line => line

end Forgetting

/-- Names stand for themselves, and integers for any others. -/
def Likeness.anyValues : Likeness where
  keepsValues := False
  name := Eq
  name_iff := by
    rintro x _ y _ rfl rfl
    exact Iff.rfl

namespace Token

variable {token other : Token}

theorem alike_of_forgetValue (h : token.forgetValue = other.forgetValue) :
    token.Alike .anyValues other := by
  cases token with
  | literal n =>
      cases other with
      | literal m => exact .literal False.elim
      | word word => cases h
      | ident name => cases h
  | word word =>
      cases other with
      | word word' =>
          cases h
          exact .word word
      | literal m => cases h
      | ident name => cases h
  | ident name =>
      cases other with
      | ident name' =>
          cases h
          exact .ident rfl
      | literal m => cases h
      | word word => cases h

end Token

theorem Line.alike_of_forgetValues {line other : Line}
    (h : line.forgetValues = other.forgetValues) : line.Alike .anyValues other := by
  obtain ⟨hnumber, htokens⟩ := Line.mk.inj h
  refine ⟨hnumber, (forall₂_iff_map_eq.2 htokens).imp ?_⟩
  intro token token' hsame
  exact Token.alike_of_forgetValue (Located.mk.inj hsame).2

theorem Diagnostic.Alike.forgetValue {report other : Diagnostic}
    (h : report.Alike .anyValues other) : report.forgetValue = other.forgetValue := by
  cases h with
  | report hfault line column column' =>
      rw [Fault.reportAt_eq, Fault.reportAt_eq]
      cases hfault with
      | nameMissing | underflow | nameReserved | notAName => rfl
      | undeclared hx | valueIsName hx | operandIsName hx =>
          rw [show _ = _ from hx]
          rfl

theorem Event.Alike.forgetValue {event other : Event} (h : event.Alike .anyValues other) :
    event.forgetValue = other.forgetValue := by
  cases h with
  | print text text' => rfl
  | diagnostic hreport => exact congrArg Event.diagnostic hreport.forgetValue

theorem Operand.Alike.slot_eq {operand other : Operand} (h : operand.Alike .anyValues other) :
    operand.slot = other.slot := by
  cases h with
  | integer _ => rfl
  | name hx => exact congrArg Assembly.Slot.name hx

namespace Assembly

/-- Of the lines that are read by the assembler, only a push of an integer depends on it. -/
theorem TextLine.Alike.forgetValue {line other : TextLine} (h : line.Alike .anyValues other)
    (hline : line.isAssembled = true) : line.forgetValue = other.forgetValue := by
  cases h with
  | code instruction => rfl
  | pushInt _ => rfl
  | label index => rfl
  | source line other => cases hline
  | report report report' => cases hline

end Assembly

/-- Names that stand for themselves are the same. -/
theorem eq_of_forall₂_name {names names' : List String}
    (h : List.Forall₂ Likeness.anyValues.name names names') : names = names' :=
  List.forall₂_eq_eq_eq ▸ h

/-- What the operands on a stack are, and which of its items they are, does not depend on
integers. -/
theorem map_slot_eq {items others : List Operand}
    (h : List.Forall₂ (Operand.Alike .anyValues) items others) :
    items.map Operand.slot = others.map Operand.slot :=
  map_eq_map_of_forall₂ h fun _ _ hoperand => hoperand.slot_eq

open Assembly in
/-- Integers steer nothing. Texts with the same lines but for the values of literals run alike
in new sessions: both come to their end or both are ended by a type mismatch with the same
line and message, and they queue as many events, which are prints and diagnostics in the same
places. Their diagnostics have the same kinds and lines, and the same messages too where these
cannot name an integer. In the end the same names lie in the same places of stacks of the same
size, with integers in all others, and the same variables are declared. They compile to
listings with the same data and cells, in which only the pushed integers are different, or they
both fail to compile. -/
theorem integers_steer_nothing {source other : String}
    (h : (Line.ofSource source).map Line.forgetValues =
      (Line.ofSource other).map Line.forgetValues) (options : Options) :
    let run := (Session.new options).execute source
    let run' := (Session.new options).execute other
    run.2.map Diagnostic.forgetValue = run'.2.map Diagnostic.forgetValue ∧
      (∀ fatal ∈ run.2, fatal.kind = .typeMismatch) ∧
      run.1.events.toList.map Event.forgetValue = run'.1.events.toList.map Event.forgetValue ∧
      run.1.state.stack.items.map Operand.slot = run'.1.state.stack.items.map Operand.slot ∧
      run.1.state.vars.names = run'.1.state.vars.names ∧
      match compile options.recover source, compile options.recover other with
      | .ok listing, .ok listing' =>
          listing.data = listing'.data ∧ listing.cells = listing'.cells ∧
            listing.assembled.map TextLine.forgetValue =
              listing'.assembled.map TextLine.forgetValue
      | .error report, .error report' => report.forgetValue = report'.forgetValue
      | _, _ => False := by
  intro run run'
  have hlines := (forall₂_iff_map_eq.2 h).imp fun _ _ => Line.alike_of_forgetValues
  let session := Session.new options
  have hrun : Parallel (State.Alike .anyValues) (Event.Alike .anyValues) session.events.toList
      session.events.toList run run' := Session.parallel_of_alike hlines rfl .empty
  refine ⟨?_, ?_, ?_, map_slot_eq hrun.state.stack, ?_, ?_⟩
  · exact hrun.map_result_eq fun _ _ h => Event.diagnostic.inj h.forgetValue
  · intro fatal hfatal
    have hended := (Session.isFatal_of_takeAll (Prod.ext rfl hfatal)).1
    exact of_decide_eq_true hended
  · exact hrun.map_events_eq fun _ _ h => h.forgetValue
  · exact eq_of_forall₂_name hrun.state.vars.names
  · have hboth := both_compile_of_alike hlines options.recover
    generalize compile options.recover source = compiled at hboth ⊢
    generalize compile options.recover other = compiled' at hboth ⊢
    cases hboth with
    | error hreport => exact hreport.forgetValue
    | ok halike =>
        obtain ⟨hnames, hvars, htext⟩ := halike
        refine ⟨?_, ?_, Listing.map_assembled_eq htext fun _ _ h => h.forgetValue⟩
        · rw [Listing.data, Listing.data, eq_of_forall₂_name hnames]
        · rw [Listing.cells, Listing.cells, eq_of_forall₂_name hvars]

/-- Division by zero, an integer in the place of a name and one that is no name do not get in
the way. -/
theorem integers_steer_nothing_in_division :
    let source := "variable x 7 0 mod x ! 3 @ variable 1 x @ ."
    let other := "variable x -9 +4 mod x ! 0 @ variable 22 x @ ."
    (Line.ofSource source).map Line.forgetValues = (Line.ofSource other).map Line.forgetValues ∧
      ((Session.new {}).execute source).1.events.toList.map Event.forgetValue =
        ((Session.new {}).execute other).1.events.toList.map Event.forgetValue := by
  intro source other
  have hlines : (Line.ofSource source).map Line.forgetValues =
      (Line.ofSource other).map Line.forgetValues := by decide +kernel
  exact ⟨hlines, (integers_steer_nothing hlines {}).2.2.1⟩

end StraightForth
