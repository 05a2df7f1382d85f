import StraightForth.Fault

/-!
# Operands

The stack holds integers of 32 bits and names. A name stands for itself until a command reads
it as the name of a variable.
-/

namespace StraightForth

/-- What the stack holds. -/
inductive Operand
  | integer (value : Int32)
  | name (name : String)
deriving DecidableEq

namespace Operand

/-- How an operand is printed. -/
def text : Operand → String
  | .integer value => Decimal.text value.toInt
  | .name x => x

/-- The value of an integer operand. -/
def asInteger : Operand → Except Fault Int32
  | .integer value => .ok value
  | .name x => .error (.operandIsName x)

/-- The name that an operand gives to a variable. -/
def asName : Operand → Except Fault String
  | .integer value => .error (.notAName (some value))
  | .name x => .ok x

end Operand

end StraightForth
