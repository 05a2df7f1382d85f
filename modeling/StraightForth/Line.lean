import StraightForth.Text.Lines
import StraightForth.Text.Runs
import StraightForth.Token

/-!
# Lines of source

A line is its number, counted from one, and its tokens with their columns. A backslash starts
a comment wherever it stands, and the comment takes the rest of the line.
-/

namespace StraightForth

/-- The part of a line in front of its comment. -/
def beforeComment (text : List Char) : List Char :=
  text.takeWhile (· ≠ '\\')

/-- The tokens of a text up to its first comment. -/
def Token.scan (text : List Char) : List (Located Token) :=
  (Text.runs 0 (beforeComment text)).map fun run =>
    ⟨run.span, Token.ofString (String.ofList run.text)⟩

/-- A numbered line of tokens. -/
structure Line where
  number : Nat
  tokens : List (Located Token)
deriving DecidableEq

namespace Line

/-- Read one line of text. -/
def ofString (number : Nat) (text : String) : Line :=
  ⟨number, Token.scan text.toList⟩

/-- The lines of a source text, the first of which has number one. -/
def ofSource (source : String) : List Line :=
  ((Text.lines source.toList).zipIdx 1).map fun line => ⟨line.2, Token.scan line.1⟩

/-- Whether nothing but blanks and a comment stands on the line. -/
def isEmpty (line : Line) : Bool :=
  line.tokens.isEmpty

/-- The tokens of a line as they are written, with one space between two of them. -/
def text (line : Line) : String :=
  " ".intercalate (line.tokens.map fun token => token.item.text)

/-- Write every line of a source in its plainest form: without comments, with single spaces
and with a line feed at its end. -/
def reformat (source : String) : String :=
  Text.unlines ((ofSource source).map text)

end Line

end StraightForth
