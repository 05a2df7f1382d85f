/-!
# Physical lines

A line feed ends a line, and text after the last one is a line of its own unless it is empty.
A carriage return in front of the line feed stays in its line: it is blank, or part of the
comment it follows, and so carries no token.
-/

namespace StraightForth.Text

/-- Put a character in front of text that is already cut into lines. A line feed ends the
line before it, of which nothing is known yet; any other character joins the first line. -/
def consLines (c : Char) (lines : List (List Char)) : List (List Char) :=
  if c = '\n' then [] :: lines
  else match lines with
    | [] => [[c]]
    | line :: rest => (c :: line) :: rest

/-- The lines of a text, without their line feeds. -/
def lines (text : List Char) : List (List Char) :=
  text.foldr consLines []

@[simp] theorem lines_nil : lines [] = [] := rfl

@[simp] theorem lines_cons (c : Char) (text : List Char) :
    lines (c :: text) = consLines c (lines text) := rfl

/-- Write lines out, each ended by a line feed. -/
def unlines (lines : List String) : String :=
  String.join (lines.map (· ++ "\n"))

end StraightForth.Text
