import StraightForth.Proofs.Steps

/-!
# Programs over other integers

A program can be run on any kind of integers for which the operations of its words are given.
This module defines such runs. They print operands and report faults that still have their
integers in them, so that it can be decided afterwards how an integer is to be written: a map
into the integers of 32 bits turns a run on other integers into what a session shows of it.

## Implementation notes

Stacks are lists here, and every command is a single match on the operands on top. That the
runs on integers of 32 bits are those of a session is proved, and is the case of the identity
map in the main statement on such maps.
-/

namespace StraightForth

/-- The integers of a program: what its literals stand for, and what its words compute. -/
structure Arithmetic (α : Type) where
  literal : Int32 → α
  add : α → α → α
  subtract : α → α → α
  multiply : α → α → α
  remainder : α → α → α
  negate : α → α

namespace Arithmetic

/-- Integers of 32 bits, which wrap around. -/
def wrapping : Arithmetic Int32 where
  literal n := n
  add n m := n + m
  subtract n m := n - m
  multiply n m := n * m
  remainder := Operand.remainder
  negate n := -n

/-- All integers. -/
def unbounded : Arithmetic Int where
  literal := Int32.toInt
  add n m := n + m
  subtract n m := n - m
  multiply n m := n * m
  remainder n m := if m = 0 then 0 else n.tmod m
  negate n := -n

end Arithmetic

namespace Over

section Data

variable (α : Type)

/-- What a stack of such integers holds. -/
inductive Operand
  | integer (value : α)
  | name (x : String)
deriving DecidableEq

/-- A stack, its top first, and variables in the order of their declarations. -/
structure State where
  items : List (Operand α)
  vars : List (String × α)
deriving DecidableEq

/-- A fault that names one of the integers, or any other. -/
inductive Fault
  | notAName (value : α)
  | other (fault : StraightForth.Fault)
deriving DecidableEq

/-- How a command ended. -/
inductive Outcome
  | done
  | printed (operand : Operand α)
  | dumped (items : List (Operand α))
  | abandoned (fault : Fault α)
deriving DecidableEq

/-- A fault with the place of its command. -/
structure Report where
  fault : Fault α
  line : Nat
  column : Span
deriving DecidableEq

/-- What a run lets know: an operand, the operands of a stack from the bottom to the top, or a
fault. -/
inductive Event
  | print (operand : Operand α)
  | dump (items : List (Operand α))
  | fault (report : Report α)
deriving DecidableEq

/-- What a run has come to. -/
structure Run where
  state : State α
  events : List (Event α)
  /-- What ended the run, if it did not come to its end. -/
  result : Option (Report α)
deriving DecidableEq

end Data

variable {α : Type}

/-- A name among integers is the only fatal fault. -/
def Fault.isFatal : Fault α → Bool
  | .other (.operandIsName _) => true
  | _ => false

namespace State

/-- Nothing on the stack and no variables. -/
def empty : State α := ⟨[], []⟩

/-- The names of the variables. -/
def names (s : State α) : List String := s.vars.map Prod.fst

/-- Replace two integers on top by others, given in the order of pushing. -/
def arrange (s : State α) (results : α → α → List α) : State α × Outcome α :=
  match s.items with
  | .integer right :: .integer left :: rest =>
      ({ s with items := (results left right).reverse.map .integer ++ rest }, .done)
  | .name x :: _ :: rest => ({ s with items := rest }, .abandoned (.other (.operandIsName x)))
  | .integer _ :: .name x :: rest =>
      ({ s with items := rest }, .abandoned (.other (.operandIsName x)))
  | _ => (s, .abandoned (.other .underflow))

/-- Store an integer in the variable named on top of it. -/
def store (s : State α) : State α × Outcome α :=
  match s.items with
  | .integer n :: _ :: rest => ({ s with items := rest }, .abandoned (.notAName n))
  | .name x :: .integer n :: rest =>
      if x ∈ s.names then
        (⟨rest, s.vars.map fun entry => if entry.1 = x then (x, n) else entry⟩, .done)
      else ({ s with items := rest }, .abandoned (.other (.undeclared x)))
  | .name x :: .name y :: rest =>
      if x ∈ s.names then ({ s with items := rest }, .abandoned (.other (.valueIsName y)))
      else ({ s with items := rest }, .abandoned (.other (.undeclared x)))
  | _ => (s, .abandoned (.other .underflow))

/-- Replace a name by the value of its variable. -/
def fetch (s : State α) : State α × Outcome α :=
  match s.items with
  | [] => (s, .abandoned (.other .underflow))
  | .integer n :: rest => ({ s with items := rest }, .abandoned (.notAName n))
  | .name x :: rest =>
      match s.vars.lookup x with
      | some n => ({ s with items := .integer n :: rest }, .done)
      | none => ({ s with items := rest }, .abandoned (.other (.undeclared x)))

/-- Copy the top operand, if there is one. -/
def dup (s : State α) : State α × Outcome α :=
  match s.items with
  | [] => (s, .done)
  | top :: rest => ({ s with items := top :: top :: rest }, .done)

/-- Remove the top operand, if there is one. -/
def drop (s : State α) : State α × Outcome α :=
  ({ s with items := s.items.tail }, .done)

/-- Copy the operand below the top one. -/
def copySecond (s : State α) : State α × Outcome α :=
  match s.items with
  | top :: second :: rest => ({ s with items := second :: top :: second :: rest }, .done)
  | _ => (s, .abandoned (.other .underflow))

/-- Change the sign of the integer on top, if there is an operand. -/
def negate (ops : Arithmetic α) (s : State α) : State α × Outcome α :=
  match s.items with
  | [] => (s, .done)
  | .integer n :: rest => ({ s with items := .integer (ops.negate n) :: rest }, .done)
  | .name x :: rest => ({ s with items := rest }, .abandoned (.other (.operandIsName x)))

/-- Print the top operand and remove it, if there is one. -/
def print (s : State α) : State α × Outcome α :=
  match s.items with
  | [] => (s, .done)
  | top :: rest => ({ s with items := rest }, .printed top)

/-- The effect of a primitive. -/
def perform (ops : Arithmetic α) (s : State α) : Primitive → State α × Outcome α
  | .store => s.store
  | .fetch => s.fetch
  | .add => s.arrange fun left right => [ops.add left right]
  | .subtract => s.arrange fun left right => [ops.subtract left right]
  | .multiply => s.arrange fun left right => [ops.multiply left right]
  | .modulo => s.arrange fun left right => [ops.remainder left right]
  | .dup => s.dup
  | .swap => s.arrange fun left right => [right, left]
  | .drop => s.drop
  | .copySecond => s.copySecond
  | .negate => s.negate ops
  | .nip => s.arrange fun _ right => [right]
  | .tuck => s.arrange fun left right => [right, left, right]
  | .print => s.print
  | .printStack => (s, .dumped s.items.reverse)

/-- Add a variable, which is zero at first. One that exists keeps its value. -/
def declare (ops : Arithmetic α) (s : State α) (x : String) : State α :=
  if x ∈ s.names then s else { s with vars := s.vars ++ [(x, ops.literal 0)] }

/-- The effect of a command. -/
def execute (ops : Arithmetic α) (s : State α) : Command → State α × Outcome α
  | .push (.integer n) => ({ s with items := .integer (ops.literal n) :: s.items }, .done)
  | .push (.name x) => ({ s with items := .name x :: s.items }, .done)
  | .perform primitive => s.perform ops primitive
  | .declare x => (s.declare ops x, .done)
  | .declareNothing => (s, .abandoned (.other .nameMissing))
  | .declareReserved token column => (s, .abandoned (.other (.nameReserved token column)))

end State

/-- The run with an event in front of its own. -/
def Run.after (run : Run α) (event : Event α) : Run α :=
  { run with events := event :: run.events }

/-- Take steps until one of them ends the run. A fatal fault does, unless it is recovered
from. -/
def takeAll (ops : Arithmetic α) (recover : Bool) (s : State α) : List Step → Run α
  | [] => ⟨s, [], none⟩
  | step :: rest =>
      let effect := s.execute ops step.command
      let later := takeAll ops recover effect.1 rest
      match effect.2 with
      | .done => later
      | .printed operand => later.after (.print operand)
      | .dumped items => later.after (.dump items)
      | .abandoned fault =>
          let report := ⟨fault, step.line, step.column⟩
          if fault.isFatal && !recover then ⟨effect.1, [], some report⟩
          else later.after (.fault report)

/-- Run a source text. -/
def execute (ops : Arithmetic α) (options : Options) (s : State α) (source : String) : Run α :=
  takeAll ops options.recover (if options.persist then s else .empty) (Step.ofSource source)

section Reading

/-- An operand of a session with another integer for its own. -/
def Operand.ofOperand (g : Int32 → α) : StraightForth.Operand → Operand α
  | .integer n => .integer (g n)
  | .name x => .name x

/-- The state of a session on other integers. -/
def State.ofState (g : Int32 → α) (s : StraightForth.State) : State α where
  items := s.stack.items.map (Operand.ofOperand g)
  vars := s.vars.entries.map fun entry => (entry.1, g entry.2)

variable (f : α → Int32)

/-- The operand of 32 bits that is read for an operand. -/
def Operand.read : Operand α → StraightForth.Operand
  | .integer value => .integer (f value)
  | .name x => .name x

/-- The state of a session that is read for a state. -/
def State.read (s : State α) : StraightForth.State :=
  ⟨⟨s.items.map (Operand.read f)⟩, ⟨s.vars.map fun entry => (entry.1, f entry.2)⟩⟩

def Fault.read : Fault α → StraightForth.Fault
  | .notAName value => .notAName (some (f value))
  | .other fault => fault

/-- The outcome that a session shows. Only here an operand gets a text. -/
def Outcome.read : Outcome α → StraightForth.Outcome
  | .done => .done
  | .printed operand => .printed ((operand.read f).text ++ "\n")
  | .dumped items =>
      .printed ("[Bottom -> Top] " ++
        Stack.bracket (items.map fun operand => (operand.read f).text) ++ "\n")
  | .abandoned fault => .abandoned (fault.read f)

def Report.read (report : Report α) : Diagnostic :=
  (report.fault.read f).reportAt report.line report.column

/-- The event that a session raises. -/
def Event.read : Event α → StraightForth.Event
  | .print operand => .print ((operand.read f).text ++ "\n")
  | .dump items =>
      .print ("[Bottom -> Top] " ++
        Stack.bracket (items.map fun operand => (operand.read f).text) ++ "\n")
  | .fault report => .diagnostic (report.read f)

/-- What a run does to a session. -/
def Run.read (run : Run α) (session : Session) : Session × Option Diagnostic :=
  (({ session with state := run.state.read f }).queueAll (run.events.map (Event.read f)),
    run.result.map (Report.read f))

end Reading

end Over

end StraightForth
