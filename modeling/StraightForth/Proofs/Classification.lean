import StraightForth.Proofs.Spelling
import Mathlib.Data.List.Basic
import Mathlib.Data.List.Induction
import Mathlib.Tactic.IntervalCases

/-!
# What a piece of text is

A piece of text is a word, an integer or a name. A word is told by its spelling. An integer is a
row of digits with at most one sign in front, however long the row is and whatever it starts
with, as long as 32 bits can hold its value. All the rest are names, lone signs and numbers out of
range among them. The main statement is that texts are classified in this way, and that the text
of a token is read as that token again.

## Implementation notes

The grammar of numerals goes digit by digit from the first one on. How the value of a row is found
when it is read plays no part in it, nor does the way in which numbers are written.
-/

namespace StraightForth

namespace Decimal

section Grammar

/-- The decimal digits, each in the place of its value. -/
def digits : List Char := ['0', '1', '2', '3', '4', '5', '6', '7', '8', '9']

/-- A nonempty row of digits, and the natural number that it stands for. -/
inductive Numeral : List Char → Nat → Prop
  | digit {c : Char} {value : Nat} (hc : digits[value]? = some c) : Numeral [c] value
  | concat {row : List Char} {n value : Nat} {c : Char} (h : Numeral row n)
      (hc : digits[value]? = some c) : Numeral (row ++ [c]) (10 * n + value)

/-- A row of digits with at most one sign in front, and the integer that it stands for. -/
inductive Denotes : List Char → Int → Prop
  | unsigned {row : List Char} {n : Nat} (h : Numeral row n) : Denotes row n
  | plus {row : List Char} {n : Nat} (h : Numeral row n) : Denotes ('+' :: row) n
  | minus {row : List Char} {n : Nat} (h : Numeral row n) : Denotes ('-' :: row) (-n)

/-- The canonical text of an integer: a lone zero, or a numeral that does not start with one, with
a minus sign in front if the integer is negative. -/
inductive Canonical : List Char → Int → Prop
  | zero : Canonical ['0'] 0
  | positive {row : List Char} {n : Nat} (h : Numeral row n) (hfirst : row.head? ≠ some '0') :
      Canonical row n
  | negative {row : List Char} {n : Nat} (h : Numeral row n) (hfirst : row.head? ≠ some '0') :
      Canonical ('-' :: row) (-n)

end Grammar

section Numerals

variable {row : List Char} {n : Nat}

/-- A digit has its distance from zero as its value. -/
theorem digit_iff {c : Char} {value : Nat} :
    digits[value]? = some c ↔ c.isDigit = true ∧ c.toNat - '0'.toNat = value := by
  constructor
  · intro h
    have hvalue : value < 10 := (List.getElem?_eq_some_iff.1 h).1
    interval_cases value <;> (obtain rfl := Option.some.inj h; decide)
  · rintro ⟨hc, rfl⟩
    have hrange := (Text.isDigit_iff c).1 hc
    rw [← Char.ofNat_toNat c]
    generalize c.toNat = code at hrange ⊢
    obtain ⟨hlow, hhigh⟩ := hrange
    interval_cases code <;> rfl

/-- Reading goes on with the digits behind those that are read already. -/
theorem ofDigitChars_concat (row : List Char) (c : Char) :
    Nat.ofDigitChars 10 (row ++ [c]) 0 =
      10 * Nat.ofDigitChars 10 row 0 + (c.toNat - '0'.toNat) := by
  rw [Nat.ofDigitChars_append, Nat.ofDigitChars_cons, Nat.ofDigitChars_nil]

theorem numeral_of_all_isDigit (hne : row ≠ []) (h : ∀ c ∈ row, c.isDigit = true) :
    Numeral row (Nat.ofDigitChars 10 row 0) := by
  induction row using List.reverseRecOn with
  | nil => exact (hne rfl).elim
  | append_singleton row c ih =>
      have hc := digit_iff.2 ⟨h c (by simp), rfl⟩
      rw [ofDigitChars_concat]
      by_cases hrow : row = []
      · subst hrow
        simpa using Numeral.digit hc
      · apply Numeral.concat _ hc
        apply ih hrow
        exact fun d hd => h d (List.mem_append_left _ hd)

/-- What a numeral is made of, and how it is read. -/
theorem Numeral.reads (h : Numeral row n) :
    row ≠ [] ∧ (∀ c ∈ row, c.isDigit = true) ∧ Nat.ofDigitChars 10 row 0 = n := by
  induction h with
  | @digit c value hc =>
      obtain ⟨hdigit, hvalue⟩ := digit_iff.1 hc
      refine ⟨List.cons_ne_nil _ _, by simpa using hdigit, ?_⟩
      rw [Nat.ofDigitChars_cons, Nat.ofDigitChars_nil, hvalue, Nat.mul_zero, Nat.zero_add]
  | @concat row n value c _ hc ih =>
      obtain ⟨_, hall, hn⟩ := ih
      obtain ⟨hdigit, hvalue⟩ := digit_iff.1 hc
      refine ⟨by simp, ?_, ?_⟩
      · intro d hd
        rcases List.mem_append.1 hd with hd | hd
        · exact hall d hd
        · rw [List.mem_singleton.1 hd]
          exact hdigit
      · rw [ofDigitChars_concat, hn, hvalue]

/-- The rows that are read are the numerals, and the result is what they stand for. -/
theorem natural?_eq_some_iff : natural? row = some n ↔ Numeral row n := by
  have hread : natural? row = some n ↔
      (row ≠ [] ∧ ∀ c ∈ row, c.isDigit = true) ∧ Nat.ofDigitChars 10 row 0 = n := by
    simp [natural?]
  rw [hread]
  constructor
  · rintro ⟨⟨hne, hall⟩, rfl⟩
    exact numeral_of_all_isDigit hne hall
  · intro h
    obtain ⟨hne, hall, hn⟩ := h.reads
    exact ⟨⟨hne, hall⟩, hn⟩

theorem toDigits_digit {c : Char} {value : Nat} (hc : digits[value]? = some c) :
    value < 10 ∧ Nat.toDigits 10 value = [c] := by
  have hvalue : value < 10 := (List.getElem?_eq_some_iff.1 hc).1
  refine ⟨hvalue, ?_⟩
  rw [Nat.toDigits_of_lt_base hvalue]
  interval_cases value <;> (obtain rfl := Option.some.inj hc; rfl)

/-- A numeral that does not start with a zero is the one that is written for its number. -/
theorem Numeral.toDigits_eq (h : Numeral row n) (hfirst : row.head? ≠ some '0') :
    0 < n ∧ Nat.toDigits 10 n = row := by
  induction h with
  | @digit c value hc =>
      obtain ⟨_, hdigits⟩ := toDigits_digit hc
      refine ⟨?_, hdigits⟩
      apply Nat.pos_of_ne_zero
      rintro rfl
      exact hfirst (congrArg List.head? hdigits.symm)
  | @concat row n value c hrow hc ih =>
      rw [List.head?_append_of_ne_nil row hrow.reads.1] at hfirst
      obtain ⟨hpos, hdigits⟩ := ih hfirst
      obtain ⟨hvalue, hlast⟩ := toDigits_digit hc
      constructor
      · omega
      · calc
          Nat.toDigits 10 (10 * n + value)
            = Nat.toDigits 10 n ++ Nat.toDigits 10 value :=
              (Nat.toDigits_append_toDigits (by decide) hpos hvalue).symm
          _ = row ++ [c] := by rw [hdigits, hlast]

theorem numeral_toDigits (n : Nat) : Numeral (Nat.toDigits 10 n) n :=
  natural?_eq_some_iff.1 (natural?_toDigits n)

/-- No number but zero is written with a zero in front. -/
theorem head?_toDigits_ne (hpos : 0 < n) : (Nat.toDigits 10 n).head? ≠ some '0' := by
  induction n using Nat.strongRecOn with
  | ind n ih =>
      by_cases hn : n < 10
      · rw [Nat.toDigits_of_lt_base hn]
        interval_cases n <;> decide
      · have hlow : 0 < n / 10 := by omega
        rw [Nat.toDigits_of_base_le (by decide) (by omega),
          List.head?_append_of_ne_nil _ Nat.toDigits_ne_nil]
        exact ih (n / 10) (by omega) hlow

end Numerals

section Integers

variable {row : List Char} {n : Int}

/-- A sign in front is told from a row of digits before the row is read. -/
theorem integer?_cases (row : List Char) :
    (∃ rest, row = '+' :: rest ∧ integer? row = (natural? rest).map fun m : Nat => (m : Int)) ∨
    (∃ rest, row = '-' :: rest ∧ integer? row = (natural? rest).map fun m : Nat => -(m : Int)) ∨
    integer? row = (natural? row).map fun m : Nat => (m : Int) := by
  unfold integer?
  split
  · next rest => exact .inl ⟨rest, rfl, by cases natural? rest <;> rfl⟩
  · next rest => exact .inr (.inl ⟨rest, rfl, by cases natural? rest <;> rfl⟩)
  · exact .inr (.inr (by cases natural? row <;> rfl))

/-- The texts that are read as integers are those of the grammar. -/
theorem integer?_eq_some_iff : integer? row = some n ↔ Denotes row n := by
  constructor
  · intro h
    rcases integer?_cases row with ⟨rest, rfl, hread⟩ | ⟨rest, rfl, hread⟩ | hread
    · obtain ⟨m, hm, rfl⟩ := Option.map_eq_some_iff.1 (hread.symm.trans h)
      exact .plus (natural?_eq_some_iff.1 hm)
    · obtain ⟨m, hm, rfl⟩ := Option.map_eq_some_iff.1 (hread.symm.trans h)
      exact .minus (natural?_eq_some_iff.1 hm)
    · obtain ⟨m, hm, rfl⟩ := Option.map_eq_some_iff.1 (hread.symm.trans h)
      exact .unsigned (natural?_eq_some_iff.1 hm)
  · intro h
    cases h with
    | unsigned hrow =>
        rw [integer?_of_all_isDigit (List.all_eq_true.2 hrow.reads.2.1),
          natural?_eq_some_iff.2 hrow]
        rfl
    | plus hrow =>
        simp only [integer?, natural?_eq_some_iff.2 hrow]
        rfl
    | minus hrow =>
        simp only [integer?, natural?_eq_some_iff.2 hrow]
        rfl

/-- An integer of 32 bits is read from each text that stands for it. -/
theorem int32?_eq_some_iff {value : Int32} :
    int32? row = some value ↔ Denotes row value.toInt := by
  rw [← integer?_eq_some_iff, int32?]
  have hleast : Int32.minValue.toInt = -2 ^ 31 := by decide
  have hgreatest : Int32.maxValue.toInt = 2 ^ 31 - 1 := by decide
  constructor
  · intro h
    obtain ⟨m, hm, hvalue⟩ := Option.bind_eq_some_iff.1 h
    split at hvalue
    · next hrange =>
        obtain rfl := Option.some.inj hvalue
        rw [Int32.toInt_ofInt_of_le (by omega) (by omega)]
        exact hm
    · cases hvalue
  · intro h
    rw [h, Option.bind_some, if_pos ⟨Int32.minValue_le_toInt value, Int32.toInt_le value⟩,
      Int32.ofInt_toInt]

/-- Nothing is read from the other texts, which stand for no integer or for one out of range. -/
theorem int32?_eq_none_iff :
    int32? row = none ↔ ∀ n, Denotes row n → n < -2147483648 ∨ 2147483647 < n := by
  have hleast : Int32.minValue.toInt = -2147483648 := by decide
  have hgreatest : Int32.maxValue.toInt = 2147483647 := by decide
  rw [int32?, Option.bind_eq_none_iff]
  apply forall_congr'
  intro n
  rw [integer?_eq_some_iff, hleast, hgreatest]
  apply imp_congr_right
  intro _
  split
  · next hrange => simpa using by omega
  · next hrange => simpa using by omega

/-- Within their range, 32 bits hold every integer. -/
theorem exists_toInt_eq (hleast : -2147483648 ≤ n) (hgreatest : n ≤ 2147483647) :
    ∃ value : Int32, value.toInt = n :=
  ⟨Int32.ofInt n, Int32.toInt_ofInt_of_le (by omega) (by omega)⟩

/-- What is written for an integer is its canonical text, and there is no other. -/
theorem canonical_iff : Canonical row n ↔ row = (text n).toList := by
  constructor
  · intro h
    cases h with
    | zero => decide
    | positive hrow hfirst =>
        obtain ⟨_, hdigits⟩ := hrow.toDigits_eq hfirst
        exact hdigits.symm.trans (toList_text_ofNat _).symm
    | @negative row m hrow hfirst =>
        obtain ⟨hpos, hdigits⟩ := hrow.toDigits_eq hfirst
        obtain ⟨k, rfl⟩ := Nat.exists_eq_succ_of_ne_zero (Nat.ne_of_gt hpos)
        rw [← hdigits]
        exact (toList_text_negSucc k).symm
  · rintro rfl
    cases n with
    | ofNat m =>
        rw [toList_text_ofNat]
        by_cases hm : m = 0
        · subst hm
          exact .zero
        · exact .positive (numeral_toDigits m) (head?_toDigits_ne (Nat.pos_of_ne_zero hm))
    | negSucc m =>
        rw [toList_text_negSucc]
        exact .negative (numeral_toDigits (m + 1)) (head?_toDigits_ne (Nat.succ_pos m))

end Integers

end Decimal

namespace Token

/-- A text is read as an integer exactly if it stands for that integer. -/
theorem ofString_eq_literal_iff {text : String} {value : Int32} :
    ofString text = .literal value ↔ Decimal.Denotes text.toList value.toInt := by
  rw [← Decimal.int32?_eq_some_iff]
  rcases ofString_cases text with ⟨word, rfl, hread⟩ | ⟨other, _, hvalue, hread⟩ |
    ⟨_, hnone, hread⟩
  · rw [hread, word.int32?_spelling]
    simp
  · rw [hread, hvalue]
    simp
  · rw [hread, hnone]
    simp

/-- It is read as a name exactly if it is no word and stands for no integer of 32 bits. -/
theorem ofString_eq_ident_iff {text name : String} :
    ofString text = .ident name ↔
      name = text ∧ (∀ word : Word, text ≠ word.spelling) ∧
        Decimal.int32? text.toList = none := by
  constructor
  · intro h
    rcases ofString_cases text with ⟨word, _, hread⟩ | ⟨value, _, _, hread⟩ |
      ⟨hword, hnone, hread⟩
    · rw [hread] at h
      cases h
    · rw [hread] at h
      cases h
    · rw [hread] at h
      refine ⟨(ident.inj h).symm, ?_, hnone⟩
      rintro word rfl
      rw [Word.ofSpelling?_spelling] at hword
      cases hword
  · rintro ⟨rfl, hword, hnone⟩
    rcases ofString_cases name with ⟨word, hspelling, _⟩ | ⟨value, _, hvalue, _⟩ | ⟨_, _, hread⟩
    · exact (hword word hspelling).elim
    · rw [hnone] at hvalue
      cases hvalue
    · exact hread

/-- Texts are classified as their spelling says. The spelling of a word is that word. A row of
digits with at most one sign in front is the integer that it stands for, if 32 bits can hold it,
and no other text is an integer. Anything else is a name, character by character. The text of the
token that is read is read as this token again; it is the canonical decimal of an integer, and for
words and names the text from which the token was read. -/
theorem ofString_classifies (s : String) :
    (∀ word : Word, ofString s = .word word ↔ s = word.spelling) ∧
      (∀ n : Int, (∃ value : Int32, value.toInt = n ∧ ofString s = .literal value) ↔
        Decimal.Denotes s.toList n ∧ -2147483648 ≤ n ∧ n ≤ 2147483647) ∧
      (∀ name : String, ofString s = .ident name ↔
        name = s ∧ (∀ word : Word, s ≠ word.spelling) ∧
          ∀ n : Int, Decimal.Denotes s.toList n → n < -2147483648 ∨ 2147483647 < n) ∧
      ofString (ofString s).text = ofString s ∧
      match ofString s with
      | .literal value =>
          ∀ row, Decimal.Canonical row value.toInt ↔ row = (ofString s).text.toList
      | .word _ | .ident _ => (ofString s).text = s := by
  refine ⟨fun word => ofString_eq_word_iff, ?_, ?_, ofString_text_ofString s, ?_⟩
  · intro n
    constructor
    · rintro ⟨value, rfl, hread⟩
      have hless := Int32.toInt_lt value
      refine ⟨ofString_eq_literal_iff.1 hread, Int32.le_toInt value, ?_⟩
      omega
    · rintro ⟨hdenotes, hleast, hgreatest⟩
      obtain ⟨value, rfl⟩ := Decimal.exists_toInt_eq hleast hgreatest
      exact ⟨value, rfl, ofString_eq_literal_iff.2 hdenotes⟩
  · intro name
    rw [ofString_eq_ident_iff, Decimal.int32?_eq_none_iff]
  · rcases ofString_cases s with ⟨word, rfl, hread⟩ | ⟨value, _, _, hread⟩ | ⟨_, _, hread⟩
    · rw [hread]
      rfl
    · rw [hread]
      exact fun row => Decimal.canonical_iff
    · rw [hread]
      rfl

/-- The least integer has no positive counterpart. -/
example :
    ofString "-0002147483648" = .literal Int32.minValue ∧
      ofString "2147483648" = .ident "2147483648" := by
  decide +kernel

end Token

end StraightForth
