import StraightForth.Operand.Arithmetic
import Mathlib.Data.Int.ModEq

/-!
# Arithmetic and the integers

The operations on operands, told by the arithmetic of all integers. A sum, a difference, a product
or an opposite is the one integer of 32 bits in the residue class of the exact result, and a
remainder is the one that a division toward zero leaves. The main statement has the operands that
are refused as well, so every operation gives an answer for all operands.
-/

namespace StraightForth.Operand

section Integers

/-- The integer of 32 bits differs from the exact result by a multiple of their number. -/
def Wraps (exact : Int) (value : Int32) : Prop := value.toInt ≡ exact [ZMOD 2 ^ 32]

/-- What a division toward zero leaves: it is smaller than the divisor, and has the sign of the
dividend unless it is zero. A divisor that is zero leaves zero. -/
structure IsRemainder (left right value : Int32) : Prop where
  zero (h : right = 0) : value = 0
  divides (h : right ≠ 0) : ∃ quotient : Int, left.toInt = quotient * right.toInt + value.toInt
  small (h : right ≠ 0) : value.toInt.natAbs < right.toInt.natAbs
  sign (h : right ≠ 0) : value = 0 ∨ value.toInt.sign = left.toInt.sign

/-- Wrapping around picks the integer of 32 bits in a residue class. -/
theorem ofInt_eq_iff_wraps {exact : Int} {value : Int32} :
    Int32.ofInt exact = value ↔ Wraps exact value := by
  have hlower : -(((2 ^ 32 : Nat) : Int) / 2) ≤ value.toInt := value.minValue_le_toInt
  have hupper : value.toInt < (((2 ^ 32 : Nat) : Int) + 1) / 2 := value.toInt_lt
  rw [Int32.ofInt_eq_iff_bmod_eq_toInt, Int.bmod_eq_iff (by decide), Wraps, Int.modEq_comm,
    Int.modEq_iff_dvd]
  constructor
  · exact fun h => h.2.2
  · exact fun h => ⟨hlower, hupper, h⟩

/-- What is left by a division toward zero is a remainder. -/
theorem isRemainder_remainder (left right : Int32) :
    IsRemainder left right (remainder left right) := by
  have hvalue := toInt_remainder left right
  constructor
  · rintro rfl
    rfl
  · intro h
    rw [if_neg h] at hvalue
    refine ⟨left.toInt.tdiv right.toInt, ?_⟩
    rw [hvalue, Int.mul_comm]
    exact (Int.mul_tdiv_add_tmod _ _).symm
  · intro h
    have hsize : 0 < right.toInt.natAbs := Int.natAbs_pos.2 fun hzero => h (Int32.toInt_inj.1 hzero)
    rw [if_neg h] at hvalue
    rw [hvalue, Int.natAbs_tmod]
    exact Nat.mod_lt _ hsize
  · intro h
    rw [if_neg h] at hvalue
    rw [← Int32.toInt_inj, hvalue, Int.sign_tmod]
    split
    · next hdvd => exact .inl (Int.tmod_eq_zero_of_dvd hdvd)
    · exact .inr rfl

namespace IsRemainder

variable {left right value other : Int32}

/-- A remainder lies on the side of its dividend. -/
theorem side (h : IsRemainder left right value) (hright : right ≠ 0) :
    (0 ≤ left.toInt → 0 ≤ value.toInt) ∧ (left.toInt ≤ 0 → value.toInt ≤ 0) := by
  rcases h.sign hright with rfl | hsign
  · exact ⟨fun _ => Int.le_refl 0, fun _ => Int.le_refl 0⟩
  · rw [← Int.sign_nonneg_iff, ← Int.sign_nonpos_iff, ← hsign, Int.sign_nonneg_iff,
      Int.sign_nonpos_iff]
    exact ⟨id, id⟩

/-- Two remainders of one division lie on one side of zero, so they differ by less than the
divisor, and they differ by a multiple of it. -/
theorem unique (h : IsRemainder left right value) (hother : IsRemainder left right other) :
    value = other := by
  by_cases hright : right = 0
  · rw [h.zero hright, hother.zero hright]
  · obtain ⟨quotient, hquotient⟩ := h.divides hright
    obtain ⟨otherQuotient, hotherQuotient⟩ := hother.divides hright
    have hdvd : right.toInt ∣ value.toInt - other.toInt := by
      refine ⟨otherQuotient - quotient, ?_⟩
      rw [Int.mul_comm, Int.sub_mul]
      omega
    have hless : (value.toInt - other.toInt).natAbs < right.toInt.natAbs := by
      have hsmall := h.small hright
      have hotherSmall := hother.small hright
      obtain ⟨hpositive, hnegative⟩ := h.side hright
      obtain ⟨hotherPositive, hotherNegative⟩ := hother.side hright
      omega
    have hzero : value.toInt - other.toInt = 0 :=
      Int.eq_zero_of_dvd_of_natAbs_lt_natAbs hdvd hless
    exact Int32.toInt_inj.1 (Int.sub_eq_zero.1 hzero)

end IsRemainder

theorem remainder_eq_iff {left right value : Int32} :
    remainder left right = value ↔ IsRemainder left right value := by
  constructor
  · rintro rfl
    exact isRemainder_remainder left right
  · exact (isRemainder_remainder left right).unique

end Integers

section Operations

/-- The report of a name that stands where an integer is needed. -/
def mismatch (name : String) : Diagnostic :=
  ⟨.typeMismatch, none, Span.unset, "expected integer, found " ++ name⟩

/-- An integer that is told by a relation is the only one in it. -/
theorem integer_found {found : Int32} {relation : Int32 → Prop}
    (h : ∀ value, found = value ↔ relation value) :
    (∃! value, relation value) ∧
      ∀ result : Operand, (.ok (.integer found) : Except Fault Operand) = .ok result ↔
        ∃ value, result = .integer value ∧ relation value := by
  constructor
  · refine ⟨found, (h found).1 rfl, ?_⟩
    intro value hvalue
    exact ((h value).2 hvalue).symm
  · intro result
    rw [Except.ok.injEq]
    constructor
    · rintro rfl
      exact ⟨found, rfl, (h found).1 rfl⟩
    · rintro ⟨value, rfl, hvalue⟩
      rw [(h value).2 hvalue]

/-- An operation finds the one integer that stands in a relation to two others. It refuses a name
on the right, and then a name on the left, with a report that names it. -/
structure Finds (operation : Operand → Operand → Except Fault Operand)
    (relation : Int32 → Int32 → Int32 → Prop) : Prop where
  integers (left right : Int32) : (∃! value, relation left right value) ∧
    ∀ result, operation (.integer left) (.integer right) = .ok result ↔
      ∃ value, result = .integer value ∧ relation left right value
  right (lhs : Operand) (name : String) :
    (operation lhs (.name name)).mapError Fault.report = .error (mismatch name)
  left (name : String) (right : Int32) :
    (operation (.name name) (.integer right)).mapError Fault.report = .error (mismatch name)

theorem finds_lift {op : Int32 → Int32 → Int32} {relation : Int32 → Int32 → Int32 → Prop}
    (h : ∀ left right value, op left right = value ↔ relation left right value) :
    Finds (lift op) relation where
  integers left right := integer_found (h left right)
  right _ _ := rfl
  left _ _ := rfl

/-- Every operation answers for all operands. Two integers have a sum, a difference, a product and
a remainder, each told by exact arithmetic, and an integer has an opposite. Any other operands are
refused, and the report names the one on the right if it is a name, or else the one on the left. -/
theorem operations_exact :
    Finds add (fun left right => Wraps (left.toInt + right.toInt)) ∧
    Finds subtract (fun left right => Wraps (left.toInt - right.toInt)) ∧
    Finds multiply (fun left right => Wraps (left.toInt * right.toInt)) ∧
    Finds modulo IsRemainder ∧
    (∀ n : Int32, (∃! value, Wraps (-n.toInt) value) ∧
      ∀ result, negate (.integer n) = .ok result ↔
        ∃ value, result = .integer value ∧ Wraps (-n.toInt) value) ∧
    ∀ name : String, (negate (.name name)).mapError Fault.report = .error (mismatch name) := by
  refine ⟨finds_lift ?_, finds_lift ?_, finds_lift ?_, finds_lift ?_, ?_, fun name => rfl⟩
  · intro left right value
    rw [← ofInt_eq_iff_wraps, Int32.ofInt_add, Int32.ofInt_toInt, Int32.ofInt_toInt]
  · intro left right value
    rw [← ofInt_eq_iff_wraps, Int32.ofInt_sub, Int32.ofInt_toInt, Int32.ofInt_toInt]
  · intro left right value
    rw [← ofInt_eq_iff_wraps, Int32.ofInt_mul, Int32.ofInt_toInt, Int32.ofInt_toInt]
  · intro left right value
    exact remainder_eq_iff
  · intro n
    apply integer_found
    intro value
    rw [← ofInt_eq_iff_wraps, Int32.ofInt_neg, Int32.ofInt_toInt]

/-- The least integer divided by minus one leaves nothing, as does any division by zero. -/
example : modulo (.integer Int32.minValue) (.integer (-1)) = .ok (.integer 0) ∧
    modulo (.integer (-7)) (.integer 3) = .ok (.integer (-1)) ∧
    modulo (.integer 9) (.integer 0) = .ok (.integer 0) := by
  decide

end Operations

end StraightForth.Operand
