import StraightForth.Span

/-!
# Diagnostics

A diagnostic says what kind of thing went wrong, where, and about what. Whoever notices a
fault first knows its place best, so a line or column that is set stays as it is.
-/

namespace StraightForth

/-- The kinds of diagnostics. -/
inductive DiagnosticKind
  | missingIdentifier
  | invalidName
  | stackUnderflow
  | undefinedVariable
  | invalidValue
  | typeMismatch
  | internalError
  | fileNotFound
deriving DecidableEq

namespace DiagnosticKind

/-- The number of a kind. -/
def code : DiagnosticKind → Nat
  | missingIdentifier => 1
  | invalidName => 2
  | stackUnderflow => 3
  | undefinedVariable => 4
  | invalidValue => 5
  | typeMismatch => 13
  | internalError => 51
  | fileNotFound => 53

/-- The headline of a kind. -/
def text : DiagnosticKind → String
  | missingIdentifier => "MISSING IDENTIFIER"
  | invalidName => "INVALID NAME"
  | stackUnderflow => "STACK UNDERFLOW"
  | undefinedVariable => "UNDEFINED VARIABLE"
  | invalidValue => "INVALID VALUE"
  | typeMismatch => "TYPE MISMATCH"
  | internalError => "INTERNAL ERROR"
  | fileNotFound => "FILE NOT FOUND"

end DiagnosticKind

/-- A report for the user. An empty message is no message. -/
structure Diagnostic where
  kind : DiagnosticKind
  line : Option Nat
  column : Span
  message : String
deriving DecidableEq

namespace Diagnostic

/-- A diagnostic that has no place and no message yet. -/
def ofKind (kind : DiagnosticKind) : Diagnostic :=
  ⟨kind, none, Span.unset, ""⟩

/-- A fatal diagnostic ends a run. -/
def isFatal (d : Diagnostic) : Bool :=
  d.kind = .typeMismatch

/-- Set the line, unless there is one. -/
def atLine (d : Diagnostic) (line : Option Nat) : Diagnostic :=
  if d.line.isSome then d else { d with line := line }

/-- Set the column, unless there is one. -/
def atColumn (d : Diagnostic) (column : Span) : Diagnostic :=
  if d.column = Span.unset then { d with column := column } else d

/-- Set the message. -/
def withMessage (d : Diagnostic) (message : String) : Diagnostic :=
  { d with message := message }

/-- The known parts of the place, each with a space in front. -/
def place (d : Diagnostic) : String :=
  (match d.line with
    | some number => " " ++ number.repr
    | none => "") ++
  if d.column = Span.unset then "" else " " ++ d.column.text

/-- The whole diagnostic on one line. -/
def text (d : Diagnostic) : String :=
  d.kind.text ++ (if d.place = "" then "" else " IN" ++ d.place) ++
    if d.message = "" then "" else "; " ++ d.message

/-- The diagnostic as a value in a trace of the program. -/
def inspect (d : Diagnostic) : String :=
  "Error \x7b " ++ d.text ++ " \x7d"

@[simp] theorem isFatal_atLine (d : Diagnostic) (line : Option Nat) :
    (d.atLine line).isFatal = d.isFatal := by
  unfold atLine
  split <;> rfl

@[simp] theorem isFatal_atColumn (d : Diagnostic) (column : Span) :
    (d.atColumn column).isFatal = d.isFatal := by
  unfold atColumn
  split <;> rfl

end Diagnostic

end StraightForth
