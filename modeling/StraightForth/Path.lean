/-!
# Paths

A path is a text of names with slashes between them. Walked from the start directory, it leads
to a place. A slash at its end says that the place has to be a directory.
-/

namespace StraightForth

/-- Where something lies: the names that lead there from the start directory. The place of a
directory around the start directory is written with two dots for each step back. -/
abbrev Place := List String

namespace Place

/-- Whether a place is the start directory or a directory around it. -/
def isAround (place : Place) : Bool := place.all fun name => name = ".."

/-- Where a name leads from a directory. A dot stays there and two dots lead back. -/
def next (place : Place) (name : String) : Place :=
  if name = "." then place
  else if name = ".." ∧ ¬ place.isAround then place.dropLast
  else place ++ [name]

end Place

namespace Path

/-- The names along a path. Any number of slashes divides two names. -/
def names (path : String) : List String :=
  ((path.toList.splitOn '/').map String.ofList).filter fun name => name ≠ ""

/-- Whether a path ends in a slash. -/
def endsInSlash (path : String) : Bool := path.toList.getLast? = some '/'

/-- The place that a path leads to when all the directories on its way exist. -/
def place (path : String) : Place := (names path).foldl Place.next []

end Path

end StraightForth
