import StraightForth.Text.Decimal
import StraightForth.Word

/-!
# Tokens

A blank-free piece of source is a reserved word, an integer, or else a name.
-/

namespace StraightForth

/-- One unit of source text. -/
inductive Token
  | word (word : Word)
  | literal (value : Int32)
  | ident (name : String)
deriving DecidableEq

namespace Token

/-- Classify a piece of text. Digits that 32 bits cannot hold make a name. -/
def ofString (text : String) : Token :=
  match Word.ofSpelling? text with
  | some found => .word found
  | none =>
      match Decimal.int32? text.toList with
      | some value => .literal value
      | none => .ident text

/-- How a token is written. A literal loses its plus sign and its leading zeros. -/
def text : Token → String
  | .word found => found.spelling
  | .literal value => Decimal.text value.toInt
  | .ident name => name

/-- A piece of text is a word exactly when it is the spelling of that word. -/
theorem ofString_eq_word_iff {text : String} {found : Word} :
    ofString text = .word found ↔ text = found.spelling := by
  constructor
  · intro h
    unfold ofString at h
    split at h
    · next other hother =>
        cases h
        exact (Word.spelling_of_ofSpelling? hother).symm
    · split at h <;> cases h
  · rintro rfl
    simp [ofString]

end Token

end StraightForth
