/-!
# Instructions

The part of the 32-bit instruction set that compiled programs use. Instructions are data, and
their text is written last. A cell is a double word of the machine's stack, four bytes long.
-/

namespace StraightForth.Assembly

/-- The registers in use. -/
inductive Register
  | eax
  | ebx
  | edx
  | esp
deriving DecidableEq

/-- The name of a register. -/
def Register.text : Register → String
  | eax => "eax"
  | ebx => "ebx"
  | edx => "edx"
  | esp => "esp"

/-- The fixed strings that printing hands to the C library. -/
inductive Format
  /-- An integer on a line of its own. -/
  | integer
  /-- A name on a line of its own. -/
  | name
  /-- An integer within a dump of the stack. -/
  | itemInteger
  /-- A name within a dump of the stack. -/
  | itemName
  | dumpOpen
  | dumpSeparator
  | dumpClose
deriving DecidableEq

namespace Format

/-- The formats in the order of their definition. -/
def all : List Format :=
  [integer, name, itemInteger, itemName, dumpOpen, dumpSeparator, dumpClose]

/-- The symbol of a format. -/
def label : Format → String
  | integer => "fmt_int"
  | name => "fmt_name"
  | itemInteger => "dots_int"
  | itemName => "dots_name"
  | dumpOpen => "dots_open"
  | dumpSeparator => "dots_sep"
  | dumpClose => "dots_close"

/-- The characters of a format without its line feed. -/
def body : Format → String
  | integer => "%d"
  | name => "%s"
  | itemInteger => "%d"
  | itemName => "%s"
  | dumpOpen => "[Bottom -> Top] ["
  | dumpSeparator => ", "
  | dumpClose => "]"

/-- Whether a line feed ends the format. -/
def endsLine : Format → Bool
  | integer | name | dumpClose => true
  | itemInteger | itemName | dumpOpen | dumpSeparator => false

/-- The definition of a format, ended by a zero byte. -/
def row (format : Format) : String :=
  format.label ++ " db \"" ++ format.body ++ "\"," ++ (if format.endsLine then "10," else "") ++
    "0"

end Format

/-- What has an address that is known before the run. -/
inductive Symbol
  /-- The text of a name. -/
  | name (index : Nat)
  /-- The cell of a variable. -/
  | cell (index : Nat)
  | format (format : Format)
  /-- The cell that keeps the stack pointer of the caller. -/
  | stackStart
deriving DecidableEq

/-- How a symbol is written. -/
def Symbol.text : Symbol → String
  | name index => "name_" ++ index.repr
  | cell index => "var_" ++ index.repr
  | format f => f.label
  | stackStart => "stack_start"

/-- A place in memory. -/
inductive Memory
  /-- The top cell of the stack. -/
  | top
  /-- The cell with a number of cells on top of it. -/
  | below (cells : Nat)
  | symbol (symbol : Symbol)
deriving DecidableEq

/-- How a place in memory is written. -/
def Memory.text : Memory → String
  | top => "[esp]"
  | below cells => "[esp+" ++ (4 * cells).repr ++ "]"
  | symbol s => "[" ++ s.text ++ "]"

/-- One machine instruction. -/
inductive Instruction
  | pushInt (value : Int32)
  | pushAddress (symbol : Symbol)
  | pushRegister (source : Register)
  | pushMemory (source : Memory)
  | pop (target : Register)
  | addTo (target : Memory) (source : Register)
  | subtractFrom (target : Memory) (source : Register)
  | multiplyBy (target : Register) (source : Memory)
  | negate (target : Memory)
  | load (target : Register) (source : Memory)
  | save (target : Memory) (source : Register)
  /-- Take cells off the stack. -/
  | release (cells : Nat)
  | zero (target : Register)
  | compare (left : Register) (right : Int32)
  /-- Go on after a label if the last comparison found equal values. -/
  | skipIfEqual (label : Nat)
  /-- Spread the sign of `eax` over `edx`. -/
  | extendSign
  /-- Divide `edx:eax`, the quotient going to `eax` and the remainder to `edx`. -/
  | divide (divisor : Register)
  /-- Print what the stack says, the format on top. -/
  | callPrintf
  | ret
deriving DecidableEq

/-- How a label is written. -/
def labelText (index : Nat) : String := "mod_" ++ index.repr

/-- How an instruction is written. -/
def Instruction.text : Instruction → String
  | pushInt value => "push dword " ++ value.toInt.repr
  | pushAddress symbol => "push " ++ symbol.text
  | pushRegister source => "push " ++ source.text
  | pushMemory source => "push dword " ++ source.text
  | pop target => "pop " ++ target.text
  | addTo target source => "add " ++ target.text ++ ", " ++ source.text
  | subtractFrom target source => "sub " ++ target.text ++ ", " ++ source.text
  | multiplyBy target source => "imul " ++ target.text ++ ", " ++ source.text
  | negate target => "neg dword " ++ target.text
  | load target source => "mov " ++ target.text ++ ", " ++ source.text
  | save target source => "mov " ++ target.text ++ ", " ++ source.text
  | release cells => "add esp, " ++ (4 * cells).repr
  | zero target => "xor " ++ target.text ++ ", " ++ target.text
  | compare left right => "cmp " ++ left.text ++ ", " ++ right.toInt.repr
  | skipIfEqual label => "je " ++ labelText label
  | extendSign => "cdq"
  | divide divisor => "idiv " ++ divisor.text
  | callPrintf => "call printf"
  | ret => "ret"

end StraightForth.Assembly
