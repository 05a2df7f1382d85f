import StraightForth.Assembly.Instruction
import StraightForth.Diagnostic
import StraightForth.Line

/-!
# Listings

A listing is a compiled program in three sections: the instructions with comments between them,
the texts of the names, and the cells of the variables. Written out, it is a complete file for
the assembler, whose `main` saves the stack pointer first and restores it last.
-/

namespace StraightForth.Assembly

/-- One line among the instructions. -/
inductive TextLine
  | code (instruction : Instruction)
  | label (index : Nat)
  /-- The line of source that the code below it comes from. -/
  | source (line : Line)
  /-- The fault for which a command was abandoned. -/
  | report (diagnostic : Diagnostic)
deriving DecidableEq

namespace TextLine

/-- How a line is written. Only labels start at the margin. -/
def text : TextLine → String
  | code instruction => "    " ++ instruction.text
  | label index => labelText index ++ ":"
  | source line => "    ; line " ++ line.number.repr ++ ": " ++ line.text
  | report diagnostic => "    ; ?" ++ diagnostic.text

end TextLine

/-- A compiled program. -/
structure Listing where
  text : List TextLine
  /-- The distinct names that are pushed, in order of their first push. -/
  names : List String
  /-- The variables in order of their first declaration. -/
  vars : List String
  /-- The faults found while compiling, in source order. -/
  errors : List Diagnostic
deriving DecidableEq

namespace Listing

/-- The bytes of a name in decimal, ended by a zero byte, with the name as a comment. -/
def nameRow (index : Nat) (name : String) : String :=
  (Symbol.name index).text ++ " db " ++
    ",".intercalate (name.toUTF8.data.toList.map fun byte => byte.toNat.repr) ++ ",0    ; " ++ name

/-- The reservation of a variable's cell, with its name as a comment. -/
def cellRow (index : Nat) (name : String) : String :=
  (Symbol.cell index).text ++ " resd 1    ; " ++ name

/-- The rows that define the names. -/
def data (listing : Listing) : List String :=
  listing.names.zipIdx.map fun entry => nameRow entry.2 entry.1

/-- The rows that reserve the variables. -/
def cells (listing : Listing) : List String :=
  listing.vars.zipIdx.map fun entry => cellRow entry.2 entry.1

/-- What `main` does before the program. -/
def prologue : List Instruction :=
  [.save (.symbol .stackStart) .esp]

/-- What `main` does after the program. -/
def epilogue : List Instruction :=
  [.load .esp (.symbol .stackStart), .zero .eax, .ret]

/-- The whole `main`. -/
def main (listing : Listing) : List TextLine :=
  prologue.map .code ++ listing.text ++ epilogue.map .code

/-- The lines of the file. -/
def lines (listing : Listing) : List String :=
  ["global main", "extern printf", "", "section .text", "main:"] ++
    listing.main.map TextLine.text ++
    ["", "section .data"] ++ Format.all.map Format.row ++ listing.data ++
    ["", "section .bss", Symbol.stackStart.text ++ " resd 1"] ++ listing.cells

/-- The file. -/
def render (listing : Listing) : String := Text.unlines listing.lines

end Listing

end StraightForth.Assembly
