import StraightForth.Proofs.Description
import StraightForth.Proofs.Execution

/-!
# Code that works on integers

The primitives that take two integers leave the cells of their results. The one with jumps is
the remainder: it goes round the division wherever the processor would refuse it, and only
there.
-/

namespace StraightForth.Assembly

namespace Environment

variable {env : Environment}

section Remainder

/-- A number with its sign spread over the upper half is the same number. -/
theorem toInt_spread (value : Dword) :
    ((if value.msb then BitVec.allOnes 32 else 0) ++ value : BitVec 64).toInt = value.toInt := by
  rw [BitVec.toInt_append, BitVec.toInt_eq_msb_cond]
  cases value.msb with
  | true =>
      simp
      omega
  | false => simp

/-- The quotient of two numbers has 32 bits as well, unless the divisor is minus one. -/
theorem tdiv_bounds (left : Dword) {right : Dword} (hzero : right ≠ 0) (hone : right ≠ -1) :
    Int32.minValue.toInt ≤ left.toInt.tdiv right.toInt ∧
      left.toInt.tdiv right.toInt ≤ Int32.maxValue.toInt := by
  have hleast : Int32.minValue.toInt = -2147483648 := rfl
  have hgreatest : Int32.maxValue.toInt = 2147483647 := rfl
  have hupper := BitVec.two_mul_toInt_lt (x := left)
  have hlower := BitVec.le_two_mul_toInt (x := left)
  have hnonzero : right.toInt ≠ 0 := fun h => hzero (BitVec.eq_of_toInt_eq h)
  have hnegative : right.toInt ≠ -1 := fun h => hone (BitVec.eq_of_toInt_eq h)
  by_cases hright : right.toInt = 1
  · rw [hright, Int.tdiv_one]
    omega
  · have hsize : 2 ≤ right.toInt.natAbs := by omega
    have hquotient : (left.toInt.tdiv right.toInt).natAbs ≤ left.toInt.natAbs / 2 := by
      rw [Int.natAbs_tdiv]
      exact Nat.div_le_div_left hsize (by decide)
    omega

/-- The processor refuses no divisor but zero and minus one, and finds the remainder. -/
theorem exists_division (m : Machine) {divisor : Dword} (hebx : m.registers.ebx = divisor)
    (hzero : divisor ≠ 0) (hone : divisor ≠ -1) :
    ∃ result, env.applyAll m [.extendSign, .divide .ebx] = .ok result ∧
      m.Continues result m.stack [] ∧
      result.registers.edx = m.registers.eax.srem divisor ∧ result.registers.ebx = divisor := by
  obtain ⟨hlower, hupper⟩ := tdiv_bounds m.registers.eax hzero hone
  obtain rfl := hebx
  let spread : Machine :=
    { m with
      registers := { m.registers with
        edx := if m.registers.eax.msb then BitVec.allOnes 32 else 0 } }
  change ∃ result, (spread.divide m.registers.ebx >>= pure) = .ok result ∧ _
  simp only [Machine.divide, spread, toInt_spread]
  rw [if_neg (by simp only [hzero, false_or]; omega)]
  refine ⟨_, rfl, m.continues_silent _ m.stack none, ?_, rfl⟩
  rw [← BitVec.ofInt_toInt (x := m.registers.eax.srem _), BitVec.toInt_srem]

variable {m : Machine} {left right : Int32} {rest : List Dword}

theorem toBitVec_remainder_zero (left : Int32) : (Operand.remainder left 0).toBitVec = 0 := rfl

theorem toBitVec_remainder_neg_one (left : Int32) :
    (Operand.remainder left (-1)).toBitVec = 0 := by
  have hvalue := Operand.toInt_remainder left (-1)
  rw [if_neg (by decide), show (-1 : Int32).toInt = -1 from rfl, Int.tmod_neg, Int.tmod_one]
    at hvalue
  exact BitVec.eq_of_toInt_eq hvalue

theorem toBitVec_remainder (left : Int32) {right : Int32} (h : right ≠ 0) :
    (Operand.remainder left right).toBitVec = left.toBitVec.srem right.toBitVec := by
  rw [Operand.remainder, if_neg h, Int32.toBitVec_mod]

/-- The code of the remainder with its label. -/
def remainderLines (label : Nat) : List TextLine :=
  [.pop .ebx, .pop .eax, .zero .edx, .compare .ebx 0, .skipIfEqual label, .compare .ebx (-1),
      .skipIfEqual label, .extendSign, .divide .ebx].map TextLine.code ++
    [.label label, .code (.pushRegister .edx)]

/-- Both jumps lead to the label at the end of the code. -/
theorem idxOf?_remainderLines {labels : Nat} {before : List TextLine}
    (hbefore : ∀ label, .label label ∈ before → label ≤ labels) (after : List TextLine) :
    (before ++ remainderLines (labels + 1) ++ after).idxOf? (.label (labels + 1)) =
      some (before.length + 9) := by
  have hfront : .label (labels + 1) ∉ before ++ (remainderLines (labels + 1)).take 9 := by
    intro hmem
    rcases List.mem_append.1 hmem with hmem | hmem
    · exact absurd (hbefore _ hmem) (Nat.not_succ_le_self labels)
    · simp [remainderLines] at hmem
  have hindex := idxOf?_label hfront (.code (.pushRegister .edx) :: after)
  rw [List.length_append] at hindex
  simpa [remainderLines] using hindex

/-- From the label on, `edx` becomes the top cell. -/
theorem reaches_remainder_end (label : Nat) (before after : List TextLine) (m : Machine) :
    env.Reaches (before ++ remainderLines label ++ after) ⟨before.length + 9, m⟩
      ⟨before.length + 11, m.push m.registers.edx⟩ := by
  have hline : (before ++ remainderLines label ++ after)[before.length + 9]? =
      some (.label label) :=
    getElem?_within before after (by decide : 9 < 11)
  have hpush : env.applyAll m [.pushRegister .edx] = .ok (m.push m.registers.edx) := rfl
  refine Relation.ReflTransGen.head (step_label m hline) ?_
  exact reaches_within before after ((remainderLines label).take 10) [] hpush

/-- The machine with both operands in registers, once the divisor was compared with a number. -/
def operandsLoaded (m : Machine) (left right : Int32) (rest : List Dword) (number : Int32) :
    Machine :=
  { m with
    registers := { m.registers with ebx := right.toBitVec, eax := left.toBitVec, edx := 0 }
    stack := rest
    equal := some (right.toBitVec = number.toBitVec) }

section Jumps

variable {labels : Nat} {before : List TextLine}

variable (env m left right rest) in
/-- A jump is taken exactly when the divisor is the number that it was compared with. -/
theorem step_remainder_skip (hbefore : ∀ label, .label label ∈ before → label ≤ labels)
    (after : List TextLine) (index : Nat)
    (hline : (remainderLines (labels + 1))[index]? = some (.code (.skipIfEqual (labels + 1))))
    (number : Int32) :
    env.step (before ++ remainderLines (labels + 1) ++ after)
        ⟨before.length + index, operandsLoaded m left right rest number⟩ =
      .ok ⟨if right = number then before.length + 9 else before.length + index + 1,
        operandsLoaded m left right rest number⟩ := by
  have hplace := (getElem?_within before after (List.getElem?_eq_some_iff.1 hline).1).trans hline
  have hequal : (operandsLoaded m left right rest number).equal = some (decide (right = number)) :=
    congrArg some (decide_eq_decide.2 Int32.toBitVec_inj)
  rw [step_skip hplace (idxOf?_remainderLines hbefore after) hequal]
  simp only [decide_eq_true_eq]

theorem reaches_first_jump (before after : List TextLine)
    (hstack : m.stack = right.toBitVec :: left.toBitVec :: rest) :
    env.Reaches (before ++ remainderLines (labels + 1) ++ after) ⟨before.length, m⟩
      ⟨before.length + 4, operandsLoaded m left right rest 0⟩ := by
  have hload : env.applyAll m [.pop .ebx, .pop .eax, .zero .edx, .compare .ebx 0] =
      .ok (operandsLoaded m left right rest 0) := by
    obtain ⟨registers, entry, stack, cells, saved, equal, output⟩ := m
    obtain rfl : stack = _ := hstack
    rfl
  exact reaches_within before after [] ((remainderLines (labels + 1)).drop 4) hload

theorem reaches_second_jump (hbefore : ∀ label, .label label ∈ before → label ≤ labels)
    (after : List TextLine) (hstack : m.stack = right.toBitVec :: left.toBitVec :: rest)
    (hzero : right ≠ 0) :
    env.Reaches (before ++ remainderLines (labels + 1) ++ after) ⟨before.length, m⟩
      ⟨before.length + 6, operandsLoaded m left right rest (-1)⟩ := by
  have hjump := step_remainder_skip env m left right rest hbefore after 4 rfl 0
  have hcompare : env.applyAll (operandsLoaded m left right rest 0) [.compare .ebx (-1)] =
      .ok (operandsLoaded m left right rest (-1)) := rfl
  rw [if_neg hzero] at hjump
  refine Relation.ReflTransGen.trans (reaches_first_jump before after hstack) ?_
  refine Relation.ReflTransGen.head hjump ?_
  exact reaches_within before after ((remainderLines (labels + 1)).take 5)
    ((remainderLines (labels + 1)).drop 6) hcompare

end Jumps

variable (env) in
/-- The label is reached with the remainder in `edx` and the divisor in `ebx`. Both jumps lead there
with a zero, and behind them the division succeeds. -/
theorem reaches_remainder_label (labels : Nat)
    (hstack : m.stack = right.toBitVec :: left.toBitVec :: rest) :
    ∃ result, m.Continues result rest [] ∧
      result.registers.edx = (Operand.remainder left right).toBitVec ∧
      result.registers.ebx = right.toBitVec ∧
      ∀ before after : List TextLine, (∀ label, .label label ∈ before → label ≤ labels) →
        env.Reaches (before ++ remainderLines (labels + 1) ++ after) ⟨before.length, m⟩
          ⟨before.length + 9, result⟩ := by
  have hloaded (number : Int32) :
      m.Continues (operandsLoaded m left right rest number) rest [] :=
    m.continues_silent _ rest _
  by_cases hzero : right = 0
  · refine ⟨operandsLoaded m left right rest 0, hloaded 0, ?_, rfl, ?_⟩
    · rw [hzero, toBitVec_remainder_zero]
      rfl
    · intro before after hbefore
      have hjump := step_remainder_skip env m left right rest hbefore after 4 rfl 0
      rw [if_pos hzero] at hjump
      exact Relation.ReflTransGen.tail (reaches_first_jump before after hstack) hjump
  by_cases hone : right = -1
  · refine ⟨operandsLoaded m left right rest (-1), hloaded (-1), ?_, rfl, ?_⟩
    · rw [hone, toBitVec_remainder_neg_one]
      rfl
    · intro before after hbefore
      have hjump := step_remainder_skip env m left right rest hbefore after 6 rfl (-1)
      rw [if_pos hone] at hjump
      exact Relation.ReflTransGen.tail (reaches_second_jump hbefore after hstack hzero) hjump
  · obtain ⟨result, hdivide, hcontinues, hedx, hebx⟩ :=
      exists_division (operandsLoaded m left right rest (-1)) rfl
        (fun h => hzero (Int32.toBitVec_inj.1 h)) (fun h => hone (Int32.toBitVec_inj.1 h))
    refine ⟨result, (hloaded (-1)).trans hcontinues, ?_, hebx, ?_⟩
    · rw [toBitVec_remainder left hzero, hedx]
      rfl
    · intro before after hbefore
      have hjump := step_remainder_skip env m left right rest hbefore after 6 rfl (-1)
      rw [if_neg hone] at hjump
      refine Relation.ReflTransGen.trans (reaches_second_jump hbefore after hstack hzero) ?_
      refine Relation.ReflTransGen.head hjump ?_
      exact reaches_within before after ((remainderLines (labels + 1)).take 7)
        ((remainderLines (labels + 1)).drop 9) hdivide

/-- The remainder of the two cells on top replaces them, and the divisor stays in `ebx`. -/
theorem executes_remainder (labels : Nat)
    (hstack : m.stack = right.toBitVec :: left.toBitVec :: rest) :
    ∃ result, env.Executes labels (remainderLines (labels + 1)) m result ∧
      m.Continues result ((Operand.remainder left right).toBitVec :: rest) [] ∧
      result.registers.ebx = right.toBitVec := by
  obtain ⟨result, hcontinues, hedx, hebx, hreaches⟩ := reaches_remainder_label env labels hstack
  refine ⟨result.push result.registers.edx, ?_, ?_, hebx⟩
  · intro before after hbefore
    exact (hreaches before after hbefore).trans (reaches_remainder_end _ before after result)
  · rw [← hedx]
    exact ⟨congrArg _ hcontinues.stack, hcontinues.output, hcontinues.cells, hcontinues.saved,
      hcontinues.entry⟩

end Remainder

/-- The code of an arrangement puts the results in the place of the two cells on top. -/
theorem executes_arrangement {primitive : Primitive} {results : Int32 → Int32 → List Int32}
    (h : primitive.arrangement? = some results) {shape : Shape} {slots : List Slot}
    (hslots : shape.slots.items = .integer :: .integer :: slots) {m : Machine}
    {left right : Int32} {rest : List Dword}
    (hstack : m.stack = right.toBitVec :: left.toBitVec :: rest) :
    ∃ result, env.Executes shape.labels (shape.perform primitive).lines m result ∧
      m.Continues result ((results left right).reverse.map Int32.toBitVec ++ rest) [] := by
  obtain ⟨⟨items⟩, names, vars, labels⟩ := shape
  obtain rfl : items = _ := hslots
  cases primitive with
  | modulo =>
      obtain rfl := Option.some.inj h
      obtain ⟨result, hexecutes, hcontinues, _⟩ := executes_remainder labels hstack
      exact ⟨result, hexecutes, hcontinues⟩
  | multiply =>
      obtain rfl := Option.some.inj h
      have hproduct : right.toBitVec * left.toBitVec = (left * right).toBitVec :=
        BitVec.mul_comm right.toBitVec left.toBitVec
      have hcode : env.Carries [.pop .eax, .multiplyBy .eax .top, .save .top .eax] m
          ((left * right).toBitVec :: rest) [] := by
        rw [← hproduct]
        exact carries_of_stack hstack fun _ _ _ _ _ _ => ⟨_, _, rfl⟩
      exact hcode.executes labels
  | add | subtract | swap | nip | tuck =>
      obtain rfl := Option.some.inj h
      exact (carries_of_stack hstack fun _ _ _ _ _ _ => ⟨_, _, rfl⟩).executes labels
  | _ => cases h

end Environment

end StraightForth.Assembly
