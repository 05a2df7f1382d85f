import StraightForth.Proofs.Description
import StraightForth.Proofs.Execution
import Mathlib.Data.List.Forall2

/-!
# Code that prints

Where the formats are in memory, the code that prints an operand writes the text of the operand, and
the code that prints the stack writes its texts from the bottom to the top. A call of `printf` may
spoil the cells of its arguments, which are copies.
-/

namespace StraightForth

namespace Text

theorem utf8_eq_flatMap (text : String) :
    utf8 text = text.toList.flatMap String.utf8EncodeChar := by
  rw [utf8, String.toUTF8_eq_toByteArray, ← String.utf8Encode_toList, List.utf8Encode,
    List.data_toByteArray]

/-- Only the character zero is written with a zero byte. -/
theorem zero_notMem_utf8EncodeChar {c : Char} (h : c ≠ '\x00') :
    0 ∉ String.utf8EncodeChar c := by
  have hvalue : c.val.toNat ≠ 0 := fun hzero => h (Char.ext (UInt32.toNat_inj.1 hzero))
  simp only [String.utf8EncodeChar]
  intro hmem
  repeat' split at hmem
  all_goals
    simp only [List.mem_cons, List.not_mem_nil, or_false, ← UInt8.toNat_inj, UInt8.toNat_ofNat',
      UInt8.toNat_zero] at hmem
    omega

theorem zero_notMem_utf8 {text : String} (h : '\x00' ∉ text.toList) : 0 ∉ utf8 text := by
  rw [utf8_eq_flatMap]
  intro hmem
  obtain ⟨c, hc, hzero⟩ := List.mem_flatMap.1 hmem
  exact zero_notMem_utf8EncodeChar (fun heq => h (heq ▸ hc)) hzero

end Text

namespace Assembly

/-- The bytes before the first zero byte. -/
def upToZero (bytes : List UInt8) : List UInt8 := bytes.takeWhile (· ≠ 0)

theorem upToZero_append_zero {bytes rest : List UInt8} (h : 0 ∉ bytes) :
    upToZero (bytes ++ 0 :: rest) = bytes := by
  have hkeep (byte : UInt8) (hbyte : byte ∈ bytes) : decide (byte ≠ 0) = true :=
    decide_eq_true fun hzero => h (hzero ▸ hbyte)
  rw [upToZero, List.takeWhile_append_of_pos hkeep]
  simp

/-- The bytes of a format without the zero byte at its end. -/
def Format.bytes (format : Format) : List UInt8 :=
  Text.utf8 format.body ++ if format.endsLine then [10] else []

/-- The letter of the directive that prints an operand. -/
def Slot.letter : Slot → UInt8
  | .integer => 'd'.toUInt8
  | .name _ => 's'.toUInt8

theorem Slot.bytes_lineFormat (slot : Slot) :
    slot.lineFormat.bytes = ['%'.toUInt8, slot.letter, 10] := by
  cases slot <;> rfl

theorem Slot.bytes_itemFormat (slot : Slot) :
    slot.itemFormat.bytes = ['%'.toUInt8, slot.letter] := by
  cases slot <;> rfl

/-- The formats lie at their symbols. -/
def Environment.HasFormats (env : Environment) : Prop :=
  ∀ format : Format, env.string (env.address (.format format)) = format.bytes

/-- So do the names, unless one is cut short by a character zero. -/
def Environment.HasNames (env : Environment) (names : List String) : Prop :=
  ∀ (index : Nat) (x : String), names[index]? = some x → '\x00' ∉ x.toList →
    env.string (env.address (.name index)) = Text.utf8 x

/-- What the cell of an operand holds: the integer itself, or the address of the name. -/
def Environment.Holds (env : Environment) (names : List String) : Operand → Dword → Prop
  | .integer value, cell => cell = value.toBitVec
  | .name x, cell =>
      env.string cell = Text.utf8 x ∧ ∃ index, names[index]? = some x ∧
        cell = env.address (.name index)

namespace Environment

variable {env : Environment}

section Expansion

/-- A format without percent signs is printed as it is. -/
theorem expand_plain {bytes : List UInt8} (h : '%'.toUInt8 ∉ bytes) (arguments : List Dword) :
    env.expand bytes arguments = .ok (bytes, arguments) := by
  induction bytes with
  | nil => rfl
  | cons byte rest ih =>
      obtain ⟨hbyte, hrest⟩ := List.ne_and_not_mem_of_not_mem_cons h
      cases rest with
      | nil => simp [expand, Ne.symm hbyte]
      | cons letter rest =>
          simp only [expand]
          rw [if_neg (Ne.symm hbyte), ih hrest]
          rfl

/-- A directive at the start of a format takes the first argument. -/
theorem expand_directive {letter : UInt8} {rest text : List UInt8} {argument : Dword}
    (hdirective : env.directive letter argument = .ok text) (hrest : '%'.toUInt8 ∉ rest)
    (arguments : List Dword) :
    env.expand ('%'.toUInt8 :: letter :: rest) (argument :: arguments) =
      .ok (text ++ rest, arguments) := by
  simp only [expand, if_true, hdirective, expand_plain hrest]
  rfl

end Expansion

section Code

variable {m : Machine}

/-- The arguments of a call are taken off after it, whatever the call has left in them. -/
theorem carries_printf {format : Format} {count : Nat} {text : List UInt8} {left : List Dword}
    (hexpand : env.expand (env.string (env.address (.format format))) m.stack = .ok (text, left))
    (hcount : m.stack.length = left.length + count) :
    env.Carries [.pushAddress (.format format), .callPrintf, .release (count + 1)] m left text := by
  let called : Machine := m.push (env.address (.format format))
  let spoiled : List Dword :=
    (List.range (called.stack.length - left.length)).map (env.leftover called)
  have hspoiled : spoiled.length = count + 1 := by
    simp [spoiled, called, Machine.push, hcount]
    omega
  have hcall : env.Carries [.pushAddress (.format format), .callPrintf] m (spoiled ++ left)
      text := by
    have hprintf : ∃ result, env.printf called = .ok result ∧
        m.Continues result (spoiled ++ left) text := by
      simp only [printf, called, Machine.push, hexpand]
      exact ⟨_, rfl, rfl, rfl, rfl, rfl, rfl⟩
    obtain ⟨result, hresult, hcontinues⟩ := hprintf
    refine ⟨result, ?_, hcontinues⟩
    change (env.printf called >>= pure) = _
    rw [hresult]
    rfl
  have hrelease (middle : Machine) (hmiddle : middle.stack = spoiled ++ left) :
      env.Carries [.release (count + 1)] middle left [] := by
    have hcount : count + 1 ≤ middle.stack.length := by
      rw [hmiddle, List.length_append, hspoiled]
      exact Nat.le_add_right _ _
    have hdrop : env.Carries [.release (count + 1)] middle (middle.stack.drop (count + 1)) [] :=
      carries_release hcount
    rwa [hmiddle, List.drop_left' hspoiled] at hdrop
  have hcarries := hcall.append hrelease
  rwa [List.append_nil] at hcarries

/-- Printing a format without directives. -/
theorem carries_printFormat (h : env.HasFormats) {format : Format}
    (hplain : '%'.toUInt8 ∉ format.bytes) :
    env.Carries (printFormat format) m m.stack format.bytes := by
  refine carries_printf ?_ (Nat.add_zero _).symm
  rw [h format, expand_plain hplain]

/-- Printing the top cell with a format that has one directive. -/
theorem carries_printTop (h : env.HasFormats) {format : Format} {cell : Dword}
    {rest : List Dword} {text : List UInt8} (hstack : m.stack = cell :: rest)
    (hexpand : env.expand format.bytes (cell :: rest) = .ok (text, rest)) :
    env.Carries (printTop format) m rest text := by
  refine carries_printf ?_ (by rw [hstack, List.length_cons])
  rw [h format, hstack, hexpand]

/-- The directive for an operand prints its text. -/
theorem Holds.directive {names : List String} {operand : Operand} {cell : Dword}
    (h : env.Holds names operand cell) :
    env.directive operand.slot.letter cell = .ok (Text.utf8 operand.text) := by
  cases operand with
  | integer value =>
      obtain rfl := h
      rfl
  | name x => exact congrArg _ h.1

/-- A cell is printed on a line of its own as its operand is. -/
theorem Holds.expand_lineFormat {names : List String} {operand : Operand} {cell : Dword}
    (h : env.Holds names operand cell) (rest : List Dword) :
    env.expand operand.slot.lineFormat.bytes (cell :: rest) =
      .ok (Text.utf8 (operand.text ++ "\n"), rest) := by
  rw [Slot.bytes_lineFormat, Text.utf8_append]
  exact expand_directive h.directive (by decide) rest

/-- Within a dump there is no line feed. -/
theorem Holds.expand_itemFormat {names : List String} {operand : Operand} {cell : Dword}
    (h : env.Holds names operand cell) (rest : List Dword) :
    env.expand operand.slot.itemFormat.bytes (cell :: rest) =
      .ok (Text.utf8 operand.text, rest) := by
  rw [Slot.bytes_itemFormat, ← List.append_nil (Text.utf8 operand.text)]
  exact expand_directive h.directive List.not_mem_nil rest

end Code

section Dump

/-- What a dump prints for the operand at a place, counted from the bottom. -/
def dumpItem (item : Operand × Nat) : String :=
  (if item.2 = 0 then "" else ", ") ++ item.1.text

theorem join_dumpItem_succ (first : Operand) (later : List Operand) (index : Nat) :
    String.join (((first :: later).zipIdx (index + 1)).map dumpItem) =
      ", " ++ ", ".intercalate ((first :: later).map Operand.text) := by
  induction later generalizing first index with
  | nil => simp [dumpItem]
  | cons second later ih =>
      rw [List.zipIdx_cons, List.map_cons, String.join_cons, ih second (index + 1)]
      simp [dumpItem, String.append_assoc]

/-- The items with their separators make up the text of the stack. -/
theorem join_dumpItem (operands : List Operand) :
    String.join (operands.zipIdx.map dumpItem) =
      ", ".intercalate (operands.map Operand.text) := by
  rcases operands with _ | ⟨first, _ | ⟨second, later⟩⟩
  · rfl
  · simp [dumpItem]
  · rw [List.zipIdx_cons, List.map_cons, String.join_cons, join_dumpItem_succ second later 0]
    simp [dumpItem, String.append_assoc]

/-- The code for an operand at a place of a stack. -/
def dumpCode (size : Nat) (item : Operand × Nat) : List Instruction :=
  (if item.2 = 0 then [] else printFormat .dumpSeparator) ++
    .pushMemory (.below (size - 1 - item.2)) :: printTop item.1.slot.itemFormat

variable {m : Machine}

theorem carries_dumpCode (h : env.HasFormats) {names : List String} {operand : Operand}
    {cell : Dword} {size index : Nat} (hcell : m.stack[size - 1 - index]? = some cell)
    (hholds : env.Holds names operand cell) :
    env.Carries (dumpCode size (operand, index)) m m.stack
      (Text.utf8 (dumpItem (operand, index))) := by
  have hitem (middle : Machine) (hmiddle : middle.stack = m.stack) :
      env.Carries (.pushMemory (.below (size - 1 - index)) :: printTop operand.slot.itemFormat)
        middle m.stack (Text.utf8 operand.text) := by
    have hpush : env.apply middle (.pushMemory (.below (size - 1 - index))) =
        .ok (middle.push cell) := by
      simp only [apply, Machine.read, Machine.cell, hmiddle, hcell]
      rfl
    refine Carries.push hpush ?_
    exact carries_printTop h (congrArg _ hmiddle) (hholds.expand_itemFormat m.stack)
  simp only [dumpCode, dumpItem]
  rw [Text.utf8_append]
  by_cases hindex : index = 0
  · simp only [hindex, if_true] at hitem ⊢
    exact (carries_nil m).append hitem
  · simp only [hindex, if_false]
    have hseparator : '%'.toUInt8 ∉ Format.dumpSeparator.bytes := by decide +kernel
    exact (carries_printFormat h hseparator).append hitem

/-- The operands are printed one after the other, and the stack stays as it is. -/
theorem carries_dumpItems (h : env.HasFormats) {names : List String} {size : Nat}
    {items : List (Operand × Nat)}
    (hitems : ∀ item ∈ items, ∃ cell, m.stack[size - 1 - item.2]? = some cell ∧
      env.Holds names item.1 cell) :
    env.Carries (items.flatMap (dumpCode size)) m m.stack
      (Text.utf8 (String.join (items.map dumpItem))) := by
  induction items generalizing m with
  | nil => exact carries_nil m
  | cons item rest ih =>
      obtain ⟨cell, hcell, hholds⟩ := hitems item List.mem_cons_self
      rw [List.flatMap_cons, List.map_cons, String.join_cons, Text.utf8_append]
      apply (carries_dumpCode h hcell hholds).append
      intro middle hmiddle
      rw [← hmiddle]
      apply ih
      intro later hlater
      rw [hmiddle]
      exact hitems later (List.mem_cons_of_mem item hlater)

/-- The cells of a stack hold its operands. -/
theorem exists_cell_of_mem_zipIdx {names : List String} {operands : List Operand}
    {cells : List Dword} (h : List.Forall₂ (env.Holds names) operands cells)
    {item : Operand × Nat} (hitem : item ∈ operands.reverse.zipIdx) :
    ∃ cell, cells[operands.length - 1 - item.2]? = some cell ∧ env.Holds names item.1 cell := by
  obtain ⟨operand, index⟩ := item
  have hplace := List.mem_zipIdx_iff_getElem?.1 hitem
  have hindex : index < operands.length := by
    simpa using (List.getElem?_eq_some_iff.1 hplace).1
  rw [List.getElem?_reverse hindex] at hplace
  obtain ⟨hbelow, rfl⟩ := List.getElem?_eq_some_iff.1 hplace
  have hcell : operands.length - 1 - index < cells.length := h.length_eq ▸ hbelow
  exact ⟨cells[operands.length - 1 - index], List.getElem?_eq_getElem hcell, h.get hbelow hcell⟩

/-- The code of a dump is made of the codes of the operands. -/
theorem printStack_lines {shape : Shape} {operands : List Operand}
    (h : shape.slots.items = operands.map Operand.slot) :
    shape.printStack.lines =
      (printFormat .dumpOpen ++ operands.reverse.zipIdx.flatMap (dumpCode operands.length) ++
        printFormat .dumpClose).map .code := by
  have hslots : shape.slots.bottomUp = operands.reverse.map Operand.slot := by
    rw [Stack.bottomUp, h, List.map_reverse]
  have hsize : shape.slots.size = operands.length := by
    rw [Stack.size, h, List.length_map]
  simp only [Shape.printStack, Emission.code, hslots, hsize, List.zipIdx_map, List.flatMap_map]
  rfl

/-- The code of a dump prints the stack and leaves it as it is. -/
theorem executes_printStack (h : env.HasFormats) {names : List String} {shape : Shape}
    {s : State} (hshape : shape.slots.items = s.stack.items.map Operand.slot)
    (hcells : List.Forall₂ (env.Holds names) s.stack.items m.stack) :
    ∃ result, env.Executes shape.labels shape.printStack.lines m result ∧
      m.Continues result m.stack
        (Text.utf8 ("[Bottom -> Top] " ++ s.stack.text Operand.text ++ "\n")) := by
  have hopen : env.Carries (printFormat .dumpOpen) m m.stack Format.dumpOpen.bytes :=
    carries_printFormat h (by decide +kernel)
  have hitems (middle : Machine) (hmiddle : middle.stack = m.stack) :
      env.Carries (s.stack.items.reverse.zipIdx.flatMap (dumpCode s.stack.items.length)) middle
        m.stack (Text.utf8 (", ".intercalate (s.stack.bottomUp.map Operand.text))) := by
    rw [← hmiddle] at hcells ⊢
    rw [← join_dumpItem]
    exact carries_dumpItems h fun item hitem => exists_cell_of_mem_zipIdx hcells hitem
  have hclose (middle : Machine) (hmiddle : middle.stack = m.stack) :
      env.Carries (printFormat .dumpClose) middle m.stack Format.dumpClose.bytes := by
    rw [← hmiddle]
    exact carries_printFormat h (by decide +kernel)
  have htext : Text.utf8 ("[Bottom -> Top] " ++ s.stack.text Operand.text ++ "\n") =
      Format.dumpOpen.bytes ++ Text.utf8 (", ".intercalate (s.stack.bottomUp.map Operand.text)) ++
        Format.dumpClose.bytes := by
    have hopened : Format.dumpOpen.bytes = Text.utf8 ("[Bottom -> Top] " ++ "[") := by
      decide +kernel
    have hclosed : Format.dumpClose.bytes = Text.utf8 ("]" ++ "\n") := by decide +kernel
    rw [hopened, hclosed]
    simp only [Stack.text, Stack.bracket, Text.utf8_append, List.append_assoc]
  rw [printStack_lines hshape, htext]
  exact ((hopen.append hitems).append hclose).executes shape.labels

end Dump

end Environment

end Assembly

end StraightForth
