import StraightForth.Operand

/-!
# Arithmetic on operands

Integers wrap around at 32 bits. Where two operands are no integers, the fault names the right
one, which lies on top of the other.
-/

namespace StraightForth.Operand

/-- Both operands as integers, the right one looked at first. -/
def integers (lhs rhs : Operand) : Except Fault (Int32 × Int32) := do
  let right ← rhs.asInteger
  let left ← lhs.asInteger
  return (left, right)

/-- Apply an operation on integers. -/
def lift (op : Int32 → Int32 → Int32) (lhs rhs : Operand) : Except Fault Operand := do
  let (left, right) ← integers lhs rhs
  return .integer (op left right)

/-- The sum of two integers. -/
def add : Operand → Operand → Except Fault Operand := lift (· + ·)

/-- The difference of two integers. -/
def subtract : Operand → Operand → Except Fault Operand := lift (· - ·)

/-- The product of two integers. -/
def multiply : Operand → Operand → Except Fault Operand := lift (· * ·)

/-- The remainder of a division that rounds toward zero, so it has the sign of the dividend.
A zero divisor leaves nothing. -/
def remainder (left right : Int32) : Int32 :=
  if right = 0 then 0 else left % right

theorem toInt_remainder (left right : Int32) :
    (remainder left right).toInt =
      if right = 0 then 0 else left.toInt.tmod right.toInt := by
  unfold remainder
  split
  · rfl
  · exact Int32.toInt_mod left right

/-- The remainder of two integers. -/
def modulo : Operand → Operand → Except Fault Operand := lift remainder

/-- The opposite of an integer. -/
def negate (operand : Operand) : Except Fault Operand := do
  return .integer (-(← operand.asInteger))

@[simp] theorem integers_integer (left right : Int32) :
    integers (.integer left) (.integer right) = .ok (left, right) := rfl

@[simp] theorem integers_name_right (lhs : Operand) (name : String) :
    integers lhs (.name name) = .error (.operandIsName name) := rfl

@[simp] theorem integers_name_left (name : String) (right : Int32) :
    integers (.name name) (.integer right) = .error (.operandIsName name) := rfl

end StraightForth.Operand
