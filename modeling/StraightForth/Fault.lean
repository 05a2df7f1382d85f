import StraightForth.Diagnostic
import StraightForth.Token

/-!
# Faults

A fault is the reason why a command is abandoned. Its report has the wording, and only the
fault of a bad declaration knows its own column: every other one happens at the command.
-/

namespace StraightForth

/-- Why a command was abandoned. -/
inductive Fault
  /-- A declaration stands last on its line. -/
  | nameMissing
  /-- A declaration is followed by a token that cannot be a name. -/
  | nameReserved (token : Token) (column : Span)
  /-- The stack holds fewer operands than the command takes. -/
  | underflow
  /-- An integer stands where a variable is named. Before the run its value is unknown. -/
  | notAName (value : Option Int32)
  /-- A name that no variable has. -/
  | undeclared (name : String)
  /-- A name is to be stored as a value. -/
  | valueIsName (name : String)
  /-- A name stands where an integer is needed. -/
  | operandIsName (name : String)
deriving DecidableEq

namespace Fault

/-- What a fault is called. -/
def kind : Fault → DiagnosticKind
  | nameMissing => .missingIdentifier
  | nameReserved .. => .invalidName
  | underflow => .stackUnderflow
  | notAName _ => .invalidName
  | undeclared _ => .undefinedVariable
  | valueIsName _ => .invalidValue
  | operandIsName _ => .typeMismatch

/-- What a fault is about. -/
def message : Fault → String
  | nameMissing => "expected a name after variable"
  | nameReserved token _ => token.text ++ " is not a valid variable name"
  | underflow => ""
  | notAName (some value) => Decimal.text value.toInt ++ " is not a variable name"
  | notAName none => "an integer is not a variable name"
  | undeclared name => name
  | valueIsName name => "expected integer, found " ++ name
  | operandIsName name => "expected integer, found " ++ name

/-- The column that a fault brings with it. -/
def ownColumn : Fault → Span
  | nameReserved _ column => column
  | _ => Span.unset

/-- The diagnostic of a fault, before its command has a place. -/
def report (fault : Fault) : Diagnostic :=
  ⟨fault.kind, none, fault.ownColumn, fault.message⟩

/-- The diagnostic of a fault in a command at a given place. -/
def reportAt (fault : Fault) (line : Nat) (column : Span) : Diagnostic :=
  (fault.report.atLine (some line)).atColumn column

/-- The report of a fault has the line of its command, and its column unless the fault brings
one. -/
theorem reportAt_eq (fault : Fault) (line : Nat) (column : Span) :
    fault.reportAt line column =
      ⟨fault.kind, some line, if fault.ownColumn = Span.unset then column else fault.ownColumn,
        fault.message⟩ := by
  simp only [reportAt, report, Diagnostic.atLine, Diagnostic.atColumn, Option.isSome_none,
    Bool.false_eq_true, if_false]
  split <;> rfl

@[simp] theorem isFatal_reportAt (fault : Fault) (line : Nat) (column : Span) :
    (fault.reportAt line column).isFatal = fault.report.isFatal := by
  simp [reportAt]

end Fault

end StraightForth
