import StraightForth.Assembly.Listing
import StraightForth.Assembly.Shape
import StraightForth.Command

/-!
# Compiling

Each command becomes straight code for the shape it is reached in. The fault of a command is
found here and not at run time: its code only takes off the operands that the command would
have taken. A fatal fault ends the compilation, unless faults are to be recovered from.
-/

namespace StraightForth.Assembly

/-- The code of one command, the shape after it, and the fault for which it is abandoned. -/
structure Emission where
  shape : Shape
  lines : List TextLine
  fault : Option Fault
deriving DecidableEq

namespace Emission

/-- A command without effect. -/
def nothing (shape : Shape) : Emission := ⟨shape, [], none⟩

/-- A command that finds too few operands, or has none to take. -/
def abandoned (shape : Shape) (fault : Fault) : Emission := ⟨shape, [], some fault⟩

/-- A command that refuses the operands it has taken. -/
def refused (shape : Shape) (taken : Nat) (fault : Fault) : Emission :=
  ⟨shape, [.code (.release taken)], some fault⟩

/-- A command that is carried out by plain instructions. -/
def code (shape : Shape) (instructions : List Instruction) : Emission :=
  ⟨shape, instructions.map .code, none⟩

end Emission

/-- Print a format that takes no argument. -/
def printFormat (format : Format) : List Instruction :=
  [.pushAddress (.format format), .callPrintf, .release 1]

/-- Print the top cell and take it off. -/
def printTop (format : Format) : List Instruction :=
  [.pushAddress (.format format), .callPrintf, .release 2]

/-- The format of an operand on a line of its own. -/
def Slot.lineFormat : Slot → Format
  | .integer => .integer
  | .name _ => .name

/-- The format of an operand within a dump. -/
def Slot.itemFormat : Slot → Format
  | .integer => .itemInteger
  | .name _ => .itemName

namespace Shape

/-- Turn the two integers on top into a number of others by code that uses some labels. -/
def replaceTwo (shape : Shape) (results labels : Nat) (lines : List TextLine) : Emission :=
  match shape.slots.popTwo with
  | .error fault => .abandoned shape fault
  | .ok ((lhs, rhs), rest) =>
      match Slot.integers lhs rhs with
      | .error fault => .refused { shape with slots := rest } 2 fault
      | .ok () =>
          ⟨{ shape with
              slots := rest.pushAll (List.replicate results .integer)
              labels := shape.labels + labels }, lines, none⟩

/-- Turn the two integers on top into others by plain instructions. -/
def arrangeTwo (shape : Shape) (results : Nat) (instructions : List Instruction) : Emission :=
  shape.replaceTwo results 0 (instructions.map .code)

/-- Dividing by zero, or the least integer by minus one, would stop the machine. Both leave
the remainder zero, so these divisors skip the division. -/
def modulo (shape : Shape) : Emission :=
  let label := shape.labels + 1
  shape.replaceTwo 1 1 <|
    [.pop .ebx, .pop .eax, .zero .edx, .compare .ebx 0, .skipIfEqual label, .compare .ebx (-1),
        .skipIfEqual label, .extendSign, .divide .ebx].map TextLine.code ++
      [.label label, .code (.pushRegister .edx)]

/-- The value and the name on top go into the variable's cell. -/
def store (shape : Shape) : Emission :=
  match shape.slots.popTwo with
  | .error fault => .abandoned shape fault
  | .ok ((value, operand), rest) =>
      match shape.assignment operand value with
      | .error fault => .refused { shape with slots := rest } 2 fault
      | .ok index =>
          .code { shape with slots := rest }
            [.release 1, .pop .eax, .save (.symbol (.cell index)) .eax]

/-- The variable's cell replaces the name on top. -/
def fetch (shape : Shape) : Emission :=
  match shape.slots.pop with
  | .error fault => .abandoned shape fault
  | .ok (operand, rest) =>
      match shape.target operand with
      | .error fault => .refused { shape with slots := rest } 1 fault
      | .ok index =>
          .code { shape with slots := rest.push .integer }
            [.load .eax (.symbol (.cell index)), .save .top .eax]

/-- Copy the top cell, if there is one. -/
def dup (shape : Shape) : Emission :=
  match shape.slots.peek? 0 with
  | some top => .code { shape with slots := shape.slots.push top } [.pushMemory .top]
  | none => .nothing shape

/-- Take off the top cell, if there is one. -/
def drop (shape : Shape) : Emission :=
  match shape.slots.pop with
  | .ok (_, rest) => .code { shape with slots := rest } [.release 1]
  | .error _ => .nothing shape

/-- Copy the cell below the top one. -/
def copySecond (shape : Shape) : Emission :=
  match shape.slots.peek? 1 with
  | some second => .code { shape with slots := shape.slots.push second } [.pushMemory (.below 1)]
  | none => .abandoned shape .underflow

/-- Negate the integer on top, if there is an operand. -/
def negate (shape : Shape) : Emission :=
  match shape.slots.pop with
  | .error _ => .nothing shape
  | .ok (operand, rest) =>
      match operand.asInteger with
      | .error fault => .refused { shape with slots := rest } 1 fault
      | .ok () => .code { shape with slots := rest.push .integer } [.negate .top]

/-- Print the top cell by its kind and take it off, if there is one. -/
def print (shape : Shape) : Emission :=
  match shape.slots.pop with
  | .error _ => .nothing shape
  | .ok (operand, rest) => .code { shape with slots := rest } (printTop operand.lineFormat)

/-- Print all cells from the bottom, the lowest of which has all others on top. -/
def printStack (shape : Shape) : Emission :=
  let items := shape.slots.bottomUp.zipIdx.flatMap fun item =>
    (if item.2 = 0 then [] else printFormat .dumpSeparator) ++
      .pushMemory (.below (shape.slots.size - 1 - item.2)) :: printTop item.1.itemFormat
  .code shape (printFormat .dumpOpen ++ items ++ printFormat .dumpClose)

/-- The code of a primitive. -/
def perform (shape : Shape) : Primitive → Emission
  | .store => shape.store
  | .fetch => shape.fetch
  | .add => shape.arrangeTwo 1 [.pop .eax, .addTo .top .eax]
  | .subtract => shape.arrangeTwo 1 [.pop .eax, .subtractFrom .top .eax]
  | .multiply => shape.arrangeTwo 1 [.pop .eax, .multiplyBy .eax .top, .save .top .eax]
  | .modulo => shape.modulo
  | .dup => shape.dup
  | .swap =>
      shape.arrangeTwo 2 [.pop .eax, .pop .ebx, .pushRegister .eax, .pushRegister .ebx]
  | .drop => shape.drop
  | .copySecond => shape.copySecond
  | .negate => shape.negate
  | .nip => shape.arrangeTwo 1 [.pop .eax, .save .top .eax]
  | .tuck =>
      shape.arrangeTwo 3
        [.pop .eax, .pop .ebx, .pushRegister .eax, .pushRegister .ebx, .pushRegister .eax]
  | .print => shape.print
  | .printStack => shape.printStack

/-- The code of a command. -/
def execute (shape : Shape) : Command → Emission
  | .push (.integer value) =>
      .code { shape with slots := shape.slots.push .integer } [.pushInt value]
  | .push (.name x) =>
      .code { shape.addName x with slots := shape.slots.push (.name x) }
        [.pushAddress (.name (shape.nameIndex x))]
  | .perform primitive => shape.perform primitive
  | .declare name => .nothing (shape.declare name)
  | .declareNothing => .abandoned shape .nameMissing
  | .declareReserved token column => .abandoned shape (.nameReserved token column)

end Shape

/-- A listing in the making. -/
structure Draft where
  shape : Shape
  text : Array TextLine
  /-- The faults so far. -/
  errors : Array Diagnostic
deriving DecidableEq

namespace Draft

/-- A draft without code. -/
def empty : Draft := ⟨.empty, #[], #[]⟩

/-- Compile one step. Its fault is noted down, and reported below its code. -/
def step (recover : Bool) (draft : Draft) (step : Step) : Except Diagnostic Draft :=
  let emission := draft.shape.execute step.command
  let text := draft.text ++ emission.lines
  match emission.fault with
  | none => .ok ⟨emission.shape, text, draft.errors⟩
  | some fault =>
      let report := fault.reportAt step.line step.column
      if report.isFatal && !recover then .error report
      else .ok ⟨emission.shape, text.push (.report report), draft.errors.push report⟩

/-- Compile one line below a comment that shows it. An empty line leaves no trace. -/
def line (recover : Bool) (draft : Draft) (line : Line) : Except Diagnostic Draft :=
  if line.isEmpty then .ok draft
  else line.steps.foldlM (step recover) { draft with text := draft.text.push (.source line) }

/-- The finished listing. -/
def listing (draft : Draft) : Listing :=
  ⟨draft.text.toList, draft.shape.names, draft.shape.vars, draft.errors.toList⟩

end Draft

/-- Compile a source text. The error is the fatal diagnostic that ended the compilation. -/
def compile (recover : Bool) (source : String) : Except Diagnostic Listing :=
  ((Line.ofSource source).foldlM (Draft.line recover) Draft.empty).map Draft.listing

end StraightForth.Assembly
