import StraightForth.Assembly.Compile
import Mathlib.Logic.Function.Basic
import Mathlib.Logic.Relation

/-!
# The machine

A machine of 32 bits for the instructions of a listing. Its stack is the list of the cells that
were pushed since `main` was entered. Using any other cell stops the machine, and so does a
division that the processor refuses.

## Implementation notes

Where the linker puts the symbols, what the C library leaves in the registers that it may
change, and what it leaves in the cells of its arguments are parameters, since no program may
depend on them.
-/

namespace StraightForth

/-- The bytes of a text. -/
def Text.utf8 (text : String) : List UInt8 := text.toUTF8.data.toList

@[simp] theorem Text.utf8_append (first second : String) :
    utf8 (first ++ second) = utf8 first ++ utf8 second := by
  simp [utf8]

namespace Assembly

/-- What a cell or a register holds. -/
abbrev Dword := BitVec 32

/-- The general registers but for the stack pointer. -/
structure Registers where
  eax : Dword
  ebx : Dword
  ecx : Dword
  edx : Dword
  esi : Dword
  edi : Dword
  ebp : Dword
deriving DecidableEq

/-- Why a machine stops. -/
inductive Stop
  /-- There is no line left. -/
  | textEnd
  /-- The program has gone back to its caller. -/
  | returned
  /-- A cell was used that the program has not pushed. -/
  | foreignCell
  /-- A division by zero, or one with a quotient of more than 32 bits. -/
  | divideError
  /-- Nothing is known about what would happen next. -/
  | undefined
deriving DecidableEq

/-- The state of a machine between two instructions. -/
structure Machine where
  registers : Registers
  /-- The stack pointer at the entry of `main`. -/
  entry : Dword
  /-- The cells pushed since then, the top one first. -/
  stack : List Dword
  /-- The cells of the variables. -/
  cells : Nat → Dword
  /-- The cell that keeps the stack pointer of the caller. -/
  saved : Dword
  /-- Whether the last comparison found equal values, while this is known. -/
  equal : Option Bool
  /-- The bytes printed so far. -/
  output : List UInt8

/-- What a program finds around it. -/
structure Environment where
  /-- Where a symbol lies. -/
  address : Symbol → Dword
  /-- The bytes from an address on, up to the first zero byte. -/
  string : Dword → List UInt8
  /-- What a call leaves in the registers that it may change. -/
  scratch : Machine → Registers
  /-- What a call leaves in the cells of its arguments, counted from the top. -/
  leftover : Machine → Nat → Dword

namespace Machine

/-- The machine at the entry of `main`, with all cells of variables zero. -/
def enter (registers : Registers) (pointer : Dword) : Machine :=
  ⟨registers, pointer, [], fun _ => 0, 0, none, []⟩

/-- Where the stack pointer is when a number of cells are pushed. -/
def pointerAt (m : Machine) (depth : Nat) : Dword := m.entry - BitVec.ofNat 32 (4 * depth)

@[simp] theorem pointerAt_zero (m : Machine) : m.pointerAt 0 = m.entry := by
  simp [pointerAt]

/-- The value of a register. -/
def get (m : Machine) : Register → Dword
  | .eax => m.registers.eax
  | .ebx => m.registers.ebx
  | .edx => m.registers.edx
  | .esp => m.pointerAt m.stack.length

/-- Put a value into a register. The stack pointer only ever goes back to where it was. -/
def set (m : Machine) (value : Dword) : Register → Except Stop Machine
  | .eax => .ok { m with registers := { m.registers with eax := value } }
  | .ebx => .ok { m with registers := { m.registers with ebx := value } }
  | .edx => .ok { m with registers := { m.registers with edx := value } }
  | .esp =>
      match (List.range (m.stack.length + 1)).find? fun depth => m.pointerAt depth = value with
      | some depth => .ok { m with stack := m.stack.drop (m.stack.length - depth) }
      | none => .error .foreignCell

/-- Where the stack pointer was at the entry of `main`, there are no cells of the program. -/
theorem set_entry_esp (m : Machine) : m.set m.entry .esp = .ok { m with stack := [] } := by
  have hfirst : (List.range (m.stack.length + 1)).find?
      (fun depth => m.pointerAt depth = m.entry) = some 0 := by
    rw [List.range_succ_eq_map, List.find?_cons_of_pos]
    exact decide_eq_true m.pointerAt_zero
  simp only [set, hfirst, Nat.sub_zero, List.drop_length]

/-- The cell with a number of cells on top of it. -/
def cell (m : Machine) (depth : Nat) : Except Stop Dword :=
  match m.stack[depth]? with
  | some value => .ok value
  | none => .error .foreignCell

/-- Change the cell with a number of cells on top of it. -/
def setCell (m : Machine) (depth : Nat) (value : Dword) : Except Stop Machine :=
  if depth < m.stack.length then .ok { m with stack := m.stack.set depth value }
  else .error .foreignCell

/-- The value at a place in memory. Names and formats are not read as numbers. -/
def read (m : Machine) : Memory → Except Stop Dword
  | .top => m.cell 0
  | .below depth => m.cell depth
  | .symbol (.cell index) => .ok (m.cells index)
  | .symbol .stackStart => .ok m.saved
  | .symbol (.name _) | .symbol (.format _) => .error .undefined

/-- Put a value at a place in memory. -/
def write (m : Machine) (value : Dword) : Memory → Except Stop Machine
  | .top => m.setCell 0 value
  | .below depth => m.setCell depth value
  | .symbol (.cell index) => .ok { m with cells := Function.update m.cells index value }
  | .symbol .stackStart => .ok { m with saved := value }
  | .symbol (.name _) | .symbol (.format _) => .error .undefined

/-- Arithmetic makes the last comparison unknown. -/
def forgetComparison (m : Machine) : Machine := { m with equal := none }

/-- Put a value on the stack. -/
def push (m : Machine) (value : Dword) : Machine := { m with stack := value :: m.stack }

/-- Take cells off the stack. -/
def release (m : Machine) (count : Nat) : Except Stop Machine :=
  if count ≤ m.stack.length then
    .ok { m.forgetComparison with stack := m.stack.drop count }
  else .error .foreignCell

/-- Divide `edx:eax`. The remainder has the sign of the dividend. -/
def divide (m : Machine) (divisor : Dword) : Except Stop Machine :=
  let dividend := (m.registers.edx ++ m.registers.eax).toInt
  let quotient := dividend.tdiv divisor.toInt
  if divisor = 0 ∨ quotient < Int32.minValue.toInt ∨ Int32.maxValue.toInt < quotient then
    .error .divideError
  else
    .ok { m with
      registers := { m.registers with
        eax := BitVec.ofInt 32 quotient
        edx := BitVec.ofInt 32 (dividend.tmod divisor.toInt) }
      equal := none }

end Machine

namespace Environment

variable (env : Environment)

/-- What a directive prints, which is one letter after a percent sign. -/
def directive (letter : UInt8) (argument : Dword) : Except Stop (List UInt8) :=
  if letter = 'd'.toUInt8 then .ok (Text.utf8 (Decimal.text argument.toInt))
  else if letter = 's'.toUInt8 then .ok (env.string argument)
  else .error .undefined

/-- What a format prints, and the arguments that it leaves. -/
def expand : List UInt8 → List Dword → Except Stop (List UInt8 × List Dword)
  | [], arguments => .ok ([], arguments)
  | [byte], arguments =>
      if byte = '%'.toUInt8 then .error .undefined else .ok ([byte], arguments)
  | byte :: letter :: rest, arguments =>
      if byte = '%'.toUInt8 then
        match arguments with
        | [] => .error .foreignCell
        | argument :: arguments => do
            let text ← env.directive letter argument
            let (later, left) ← expand rest arguments
            return (text ++ later, left)
      else do
        let (later, left) ← expand (letter :: rest) arguments
        return (byte :: later, left)

/-- Call `printf`. The cells of its arguments are its own to change. -/
def printf (m : Machine) : Except Stop Machine :=
  match m.stack with
  | [] => .error .foreignCell
  | format :: arguments => do
      let (text, left) ← env.expand (env.string format) arguments
      let scratch := env.scratch m
      return { m with
        registers := { m.registers with
          eax := scratch.eax, ecx := scratch.ecx, edx := scratch.edx }
        stack := (List.range (m.stack.length - left.length)).map (env.leftover m) ++ left
        equal := none
        output := m.output ++ text }

/-- The effect of an instruction that goes on to the next line. -/
def apply (m : Machine) : Instruction → Except Stop Machine
  | .pushInt value => return m.push value.toBitVec
  | .pushAddress symbol => return m.push (env.address symbol)
  | .pushRegister source => return m.push (m.get source)
  | .pushMemory source => return m.push (← m.read source)
  | .pop target =>
      match m.stack with
      | [] => .error .foreignCell
      | value :: rest => Machine.set { m with stack := rest } value target
  | .addTo target source => do
      m.forgetComparison.write ((← m.read target) + m.get source) target
  | .subtractFrom target source => do
      m.forgetComparison.write ((← m.read target) - m.get source) target
  | .multiplyBy target source => do
      m.forgetComparison.set (m.get target * (← m.read source)) target
  | .negate target => do m.forgetComparison.write (-(← m.read target)) target
  | .load target source => do m.set (← m.read source) target
  | .save target source => m.write (m.get source) target
  | .release count => m.release count
  | .zero target => m.forgetComparison.set 0 target
  | .compare left right => return { m with equal := some (m.get left = right.toBitVec) }
  | .extendSign =>
      m.set (if m.registers.eax.msb then BitVec.allOnes 32 else 0) .edx
  | .divide divisor => m.divide (m.get divisor)
  | .callPrintf => env.printf m
  | .skipIfEqual _ | .ret => .error .undefined

/-- The effects of instructions one after the other. -/
def applyAll (m : Machine) (instructions : List Instruction) : Except Stop Machine :=
  instructions.foldlM env.apply m

end Environment

/-- A machine with the number of the line that comes next. -/
structure Configuration where
  position : Nat
  machine : Machine

namespace Environment

variable (env : Environment) (program : List TextLine)

/-- Take one line. A jump goes to the line of its label, and returning needs a stack without
cells of the program. -/
def step (c : Configuration) : Except Stop Configuration :=
  match program[c.position]? with
  | none => .error .textEnd
  | some (.code (.skipIfEqual label)) =>
      match c.machine.equal, program.idxOf? (.label label) with
      | some true, some target => .ok { c with position := target }
      | some false, some _ => .ok { c with position := c.position + 1 }
      | _, _ => .error .undefined
  | some (.code .ret) =>
      if c.machine.stack = [] then .error .returned else .error .undefined
  | some (.code instruction) => do return ⟨c.position + 1, ← env.apply c.machine instruction⟩
  | some _ => .ok { c with position := c.position + 1 }

/-- Lines are taken one after the other. -/
def Reaches : Configuration → Configuration → Prop :=
  Relation.ReflTransGen fun c d => env.step program c = .ok d

end Environment

end Assembly

end StraightForth
