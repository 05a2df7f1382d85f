import StraightForth.Fault
import StraightForth.Stack

/-!
# What is known before the run

Without jumps every command is reached exactly once, so the depth of the stack, the kind of
each of its items and the variables declared so far are known at every command. Names are
known in full; of integers only that they are integers.
-/

namespace StraightForth.Assembly

/-- What is known of an operand. -/
inductive Slot
  | integer
  | name (name : String)
deriving DecidableEq

namespace Slot

/-- Demand an integer. -/
def asInteger : Slot → Except Fault Unit
  | integer => .ok ()
  | name x => .error (.operandIsName x)

/-- The name that an operand gives to a variable. -/
def asName : Slot → Except Fault String
  | integer => .error (.notAName none)
  | name x => .ok x

/-- Demand two integers, the upper one first. -/
def integers (lhs rhs : Slot) : Except Fault Unit := do
  rhs.asInteger
  lhs.asInteger

end Slot

/-- What is known of the state, and the numbers given to names, variables and labels. -/
structure Shape where
  slots : Stack Slot
  /-- The distinct names pushed so far. -/
  names : List String
  /-- The variables declared so far. -/
  vars : List String
  /-- The number of labels used so far. -/
  labels : Nat
deriving DecidableEq

namespace Shape

/-- An empty stack, and nothing numbered. -/
def empty : Shape := ⟨.empty, [], [], 0⟩

/-- The number of a name, which is the next free one for a new name. -/
def nameIndex (shape : Shape) (name : String) : Nat := shape.names.idxOf name

/-- Give a name its number. -/
def addName (shape : Shape) (name : String) : Shape :=
  if name ∈ shape.names then shape else { shape with names := shape.names ++ [name] }

/-- The number of a declared variable. -/
def cellIndex (shape : Shape) (name : String) : Except Fault Nat :=
  match shape.vars.idxOf? name with
  | some index => .ok index
  | none => .error (.undeclared name)

/-- Give a variable its number. -/
def declare (shape : Shape) (name : String) : Shape :=
  if name ∈ shape.vars then shape
  else { shape with vars := shape.vars ++ [name] }

/-- The variable that an operand names. -/
def target (shape : Shape) (operand : Slot) : Except Fault Nat := do
  shape.cellIndex (← operand.asName)

/-- The variable that takes a value, if it is an integer. -/
def assignment (shape : Shape) (operand value : Slot) : Except Fault Nat := do
  let index ← shape.target operand
  match value with
  | .integer => return index
  | .name x => throw (.valueIsName x)

end Shape

end StraightForth.Assembly
