import StraightForth.Span
import StraightForth.Text.Blank

/-!
# Runs of visible characters

Text falls into maximal runs of characters that are not blank. Each run keeps the offset of
its first character, and its length then gives its column.
-/

namespace StraightForth.Text

/-- A maximal blank-free piece of a text. -/
structure Run where
  start : Nat
  text : List Char
deriving DecidableEq

/-- The column that a run fills. -/
def Run.span (run : Run) : Span :=
  ⟨run.start, run.start + run.text.length⟩

/-- Put the character at `offset` in front of the runs of the text after it. It joins the
first of them exactly when nothing lies between. -/
def consRuns (c : Char) (offset : Nat) (later : List Run) : List Run :=
  if isBlank c then later
  else match later with
    | [] => [⟨offset, [c]⟩]
    | run :: rest =>
        if run.start = offset + 1 then ⟨offset, c :: run.text⟩ :: rest
        else ⟨offset, [c]⟩ :: run :: rest

/-- The runs of a text whose first character has the given offset. -/
def runs (offset : Nat) (text : List Char) : List Run :=
  (text.zipIdx offset).foldr (fun place => consRuns place.1 place.2) []

@[simp] theorem runs_nil (offset : Nat) : runs offset [] = [] := rfl

@[simp] theorem runs_cons (offset : Nat) (c : Char) (text : List Char) :
    runs offset (c :: text) = consRuns c offset (runs (offset + 1) text) := rfl

end StraightForth.Text
