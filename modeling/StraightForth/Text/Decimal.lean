/-!
# Decimal integers

An integer is read from an optional sign and a nonempty row of ASCII digits. It is written
with a minus sign when negative and without leading zeros.
-/

namespace StraightForth.Decimal

/-- The value of a nonempty row of ASCII digits. -/
def natural? (digits : List Char) : Option Nat :=
  if digits ≠ [] ∧ digits.all Char.isDigit then some (Nat.ofDigitChars 10 digits 0) else none

/-- The value of a row of digits with at most one sign in front. -/
def integer? : List Char → Option Int
  | '+' :: digits => (natural? digits).map fun n => (n : Int)
  | '-' :: digits => (natural? digits).map fun n => -(n : Int)
  | digits => (natural? digits).map fun n => (n : Int)

/-- The value of a signed row of digits, when 32 bits can hold it. -/
def int32? (text : List Char) : Option Int32 :=
  (integer? text).bind fun n =>
    if Int32.minValue.toInt ≤ n ∧ n ≤ Int32.maxValue.toInt then some (Int32.ofInt n) else none

/-- The shortest decimal text of an integer. -/
def text (n : Int) : String := n.repr

@[simp] theorem toList_text_ofNat (n : Nat) : (text (Int.ofNat n)).toList = Nat.toDigits 10 n :=
  Nat.toList_repr

@[simp] theorem toList_text_negSucc (n : Nat) :
    (text (Int.negSucc n)).toList = '-' :: Nat.toDigits 10 (n + 1) := by
  simp [text, Int.repr]

theorem all_isDigit_toDigits (n : Nat) : (Nat.toDigits 10 n).all Char.isDigit = true :=
  List.all_eq_true.2 fun _ hc => Nat.isDigit_of_mem_toDigits (by decide) (by decide) hc

/-- Written digits are read back. -/
@[simp] theorem natural?_toDigits (n : Nat) : natural? (Nat.toDigits 10 n) = some n := by
  simp [natural?, all_isDigit_toDigits, Nat.toDigits_ne_nil]

/-- A row of digits has no sign in front. -/
theorem integer?_of_all_isDigit {digits : List Char} (h : digits.all Char.isDigit = true) :
    integer? digits = (natural? digits).map fun n => (n : Int) := by
  unfold integer?
  split
  · simp [Char.isDigit] at h
  · simp [Char.isDigit] at h
  · rfl

/-- A written integer is read back. -/
theorem integer?_text (n : Int) : integer? (text n).toList = some n := by
  cases n with
  | ofNat m =>
      rw [toList_text_ofNat, integer?_of_all_isDigit (all_isDigit_toDigits m), natural?_toDigits]
      rfl
  | negSucc m =>
      rw [toList_text_negSucc]
      simp only [integer?, natural?_toDigits]
      rfl

/-- A written integer of 32 bits is read back. -/
theorem int32?_text (n : Int32) : int32? (text n.toInt).toList = some n := by
  rw [int32?, integer?_text, Option.bind_some,
    if_pos ⟨Int32.minValue_le_toInt n, Int32.toInt_le n⟩, Int32.ofInt_toInt]

end StraightForth.Decimal
