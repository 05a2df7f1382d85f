/-!
# Columns

A column is a half-open range of character offsets in one line.
-/

namespace StraightForth

/-- Character offsets from the start of a line, the end exclusive. -/
structure Span where
  start : Nat
  stop : Nat
deriving DecidableEq

/-- The column of something whose place is not known. No token has it, since none is empty. -/
def Span.unset : Span := ⟨0, 0⟩

/-- The text of a column inside a message. -/
def Span.text (span : Span) : String :=
  "(" ++ span.start.repr ++ ".." ++ span.stop.repr ++ ")"

/-- Something together with the column it was written in. -/
structure Located (α : Type) where
  column : Span
  item : α
deriving DecidableEq

end StraightForth
