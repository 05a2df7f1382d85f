import StraightForth.Line
import StraightForth.Operand

/-!
# Commands

The tokens of a line are commands, with one exception: a declaration takes the token after it
as its name, whatever that token is. It never looks beyond its own line.
-/

namespace StraightForth

/-- What can be done to the stack and the variables. -/
inductive Primitive
  | store
  | fetch
  | add
  | subtract
  | multiply
  | modulo
  | dup
  | swap
  | drop
  | copySecond
  | negate
  | nip
  | tuck
  | print
  | printStack
deriving DecidableEq

/-- What a word does. A declaration is no primitive, since it needs a name. -/
def Word.primitive? : Word → Option Primitive
  | .declare => none
  | .bang => some .store
  | .store => some .store
  | .atSign => some .fetch
  | .fetch => some .fetch
  | .plus => some .add
  | .minus => some .subtract
  | .star => some .multiply
  | .mod => some .modulo
  | .dup => some .dup
  | .swap => some .swap
  | .drop => some .drop
  | .copySecond => some .copySecond
  | .neg => some .negate
  | .nip => some .nip
  | .tuck => some .tuck
  | .dot => some .print
  | .dotS => some .printStack

/-- Only the declaring word has no primitive. -/
theorem Word.primitive?_eq_none_iff {word : Word} :
    word.primitive? = none ↔ word = .declare := by
  cases word <;> simp [Word.primitive?]

/-- One command of a program. -/
inductive Command
  | push (operand : Operand)
  | perform (primitive : Primitive)
  | declare (name : String)
  /-- A declaration at the end of its line. -/
  | declareNothing
  /-- A declaration of something that is not a name, with the column of that token. -/
  | declareReserved (token : Token) (column : Span)
deriving DecidableEq

namespace Command

/-- The declaration of the token that follows the declaring word. -/
def declaration (target : Located Token) : Command :=
  match target.item with
  | .ident name => .declare name
  | token => .declareReserved token target.column

/-- The commands of one line, each in the column of its first token. -/
def ofTokens : List (Located Token) → List (Located Command)
  | [] => []
  | token :: rest =>
      match token.item with
      | .literal value => ⟨token.column, .push (.integer value)⟩ :: ofTokens rest
      | .ident name => ⟨token.column, .push (.name name)⟩ :: ofTokens rest
      | .word word =>
          match word.primitive? with
          | some primitive => ⟨token.column, .perform primitive⟩ :: ofTokens rest
          | none =>
              match rest with
              | [] => [⟨token.column, .declareNothing⟩]
              | target :: rest => ⟨token.column, declaration target⟩ :: ofTokens rest

end Command

/-- A command with its place in the source. -/
structure Step where
  line : Nat
  column : Span
  command : Command
deriving DecidableEq

/-- The steps of one line. -/
def Line.steps (line : Line) : List Step :=
  (Command.ofTokens line.tokens).map fun command => ⟨line.number, command.column, command.item⟩

/-- The steps of a whole source text. -/
def Step.ofSource (source : String) : List Step :=
  (Line.ofSource source).flatMap Line.steps

end StraightForth
