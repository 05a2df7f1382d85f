/-!
# Reserved words

Storing and fetching have two spellings each. The spellings are words of their own, so that a
word is always written back as it was read.
-/

namespace StraightForth

/-- A reserved word. -/
inductive Word
  | declare
  | bang
  | store
  | atSign
  | fetch
  | plus
  | minus
  | star
  | mod
  | dup
  | swap
  | drop
  | copySecond
  | neg
  | nip
  | tuck
  | dot
  | dotS
deriving DecidableEq

namespace Word

/-- The reserved words in their order of presentation. -/
def all : List Word :=
  [declare, bang, store, atSign, fetch, plus, minus, star, mod, dup, swap, drop, copySecond, neg,
    nip, tuck, dot, dotS]

/-- How a word is written. -/
def spelling : Word → String
  | declare => "variable"
  | bang => "!"
  | store => "store"
  | atSign => "@"
  | fetch => "fetch"
  | plus => "+"
  | minus => "-"
  | star => "*"
  | mod => "mod"
  | dup => "dup"
  | swap => "swap"
  | drop => "drop"
  | copySecond => "over"
  | neg => "neg"
  | nip => "nip"
  | tuck => "tuck"
  | dot => "."
  | dotS => ".s"

/-- The word with a given spelling. Case matters. -/
def ofSpelling? (text : String) : Option Word :=
  all.find? fun word => word.spelling = text

/-- No two words share a spelling. -/
@[simp] theorem ofSpelling?_spelling (word : Word) :
    ofSpelling? word.spelling = some word := by
  cases word <;> decide

theorem spelling_of_ofSpelling? {text : String} {word : Word}
    (h : ofSpelling? text = some word) : word.spelling = text := by
  simpa using List.find?_some h

end Word

end StraightForth
