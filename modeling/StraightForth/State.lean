import StraightForth.Command
import StraightForth.Operand.Arithmetic
import StraightForth.Stack
import StraightForth.Variables

/-!
# The effect of a command

A command changes the operand stack and the variables, and may print or be abandoned. A command
that finds too few operands takes none; one that refuses its operands has taken them already.
-/

namespace StraightForth

/-- What commands work on. -/
structure State where
  stack : Stack Operand
  vars : Variables
deriving DecidableEq

/-- How a command ended. -/
inductive Outcome
  | done
  | printed (text : String)
  | abandoned (fault : Fault)
deriving DecidableEq

/-- Store an operand under the name that another operand gives. -/
def Variables.assign (vars : Variables) (target value : Operand) :
    Except Fault Variables := do
  let name ← target.asName
  if vars.isDeclared name then
    match value with
    | .integer n => vars.store name n
    | .name x => throw (.valueIsName x)
  else throw (.undeclared name)

/-- Read the variable that an operand names. -/
def Variables.read (vars : Variables) (target : Operand) : Except Fault Int32 := do
  vars.fetch (← target.asName)

namespace State

/-- Nothing on the stack and no variables. -/
def empty : State := ⟨.empty, .empty⟩

/-- Replace the two operands on top by others, given in the order of pushing. -/
def replaceTwo (s : State) (f : Operand → Operand → Except Fault (List Operand)) :
    State × Outcome :=
  match s.stack.popTwo with
  | .error fault => (s, .abandoned fault)
  | .ok ((lhs, rhs), rest) =>
      match f lhs rhs with
      | .ok results => ({ s with stack := rest.pushAll results }, .done)
      | .error fault => ({ s with stack := rest }, .abandoned fault)

/-- Replace the two operands on top by the result of an operation. -/
def binary (s : State) (op : Operand → Operand → Except Fault Operand) : State × Outcome :=
  s.replaceTwo fun lhs rhs => do return [← op lhs rhs]

/-- Exchange two integers. -/
def swap (s : State) : State × Outcome :=
  s.replaceTwo fun lhs rhs => do
    let (second, top) ← Operand.integers lhs rhs
    return [.integer top, .integer second]

/-- Remove the lower one of two integers. -/
def nip (s : State) : State × Outcome :=
  s.replaceTwo fun lhs rhs => do
    let (_, top) ← Operand.integers lhs rhs
    return [.integer top]

/-- Copy the upper one of two integers below both. -/
def tuck (s : State) : State × Outcome :=
  s.replaceTwo fun lhs rhs => do
    let (second, top) ← Operand.integers lhs rhs
    return [.integer top, .integer second, .integer top]

/-- Store an operand in the variable named on top of it. -/
def store (s : State) : State × Outcome :=
  match s.stack.popTwo with
  | .error fault => (s, .abandoned fault)
  | .ok ((value, target), rest) =>
      match s.vars.assign target value with
      | .ok vars => (⟨rest, vars⟩, .done)
      | .error fault => ({ s with stack := rest }, .abandoned fault)

/-- Replace a name by the value of its variable. -/
def fetch (s : State) : State × Outcome :=
  match s.stack.pop with
  | .error fault => (s, .abandoned fault)
  | .ok (target, rest) =>
      match s.vars.read target with
      | .ok value => ({ s with stack := rest.push (.integer value) }, .done)
      | .error fault => ({ s with stack := rest }, .abandoned fault)

/-- Copy the top operand, if there is one. -/
def dup (s : State) : State × Outcome :=
  match s.stack.peek? 0 with
  | some top => ({ s with stack := s.stack.push top }, .done)
  | none => (s, .done)

/-- Remove the top operand, if there is one. -/
def drop (s : State) : State × Outcome :=
  match s.stack.pop with
  | .ok (_, rest) => ({ s with stack := rest }, .done)
  | .error _ => (s, .done)

/-- Copy the operand below the top one. -/
def copySecond (s : State) : State × Outcome :=
  match s.stack.peek? 1 with
  | some second => ({ s with stack := s.stack.push second }, .done)
  | none => (s, .abandoned .underflow)

/-- Change the sign of the integer on top, if there is an operand. -/
def negate (s : State) : State × Outcome :=
  match s.stack.pop with
  | .error _ => (s, .done)
  | .ok (operand, rest) =>
      match operand.negate with
      | .ok result => ({ s with stack := rest.push result }, .done)
      | .error fault => ({ s with stack := rest }, .abandoned fault)

/-- Print the top operand and remove it, if there is one. -/
def print (s : State) : State × Outcome :=
  match s.stack.pop with
  | .error _ => (s, .done)
  | .ok (operand, rest) => ({ s with stack := rest }, .printed (operand.text ++ "\n"))

/-- Print the whole stack and leave it as it is. -/
def printStack (s : State) : State × Outcome :=
  (s, .printed ("[Bottom -> Top] " ++ s.stack.text Operand.text ++ "\n"))

/-- The effect of a primitive. -/
def perform (s : State) : Primitive → State × Outcome
  | .store => s.store
  | .fetch => s.fetch
  | .add => s.binary Operand.add
  | .subtract => s.binary Operand.subtract
  | .multiply => s.binary Operand.multiply
  | .modulo => s.binary Operand.modulo
  | .dup => s.dup
  | .swap => s.swap
  | .drop => s.drop
  | .copySecond => s.copySecond
  | .negate => s.negate
  | .nip => s.nip
  | .tuck => s.tuck
  | .print => s.print
  | .printStack => s.printStack

/-- The effect of a command. -/
def execute (s : State) : Command → State × Outcome
  | .push operand => ({ s with stack := s.stack.push operand }, .done)
  | .perform primitive => s.perform primitive
  | .declare name => ({ s with vars := s.vars.declare name }, .done)
  | .declareNothing => (s, .abandoned .nameMissing)
  | .declareReserved token column => (s, .abandoned (.nameReserved token column))

end State

end StraightForth
