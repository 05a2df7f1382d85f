import StraightForth.Proofs.Registers
import StraightForth.Proofs.Translation

/-!
# What a program leaves to its caller

The cells of a program depend on its lines only, and not on what its caller has in the registers.
So whatever a source compiles to comes back to the caller, from everywhere and with the registers
that a call has to keep, but for `ebx`. Remainders and exchanges of two integers load that register
with a cell, and nothing restores it. The main statement tells exactly when it is lost.

## Implementation notes

The simulation of a run by the machine needs names without the character zero, since it is about
what is printed. Whether a program comes back does not depend on that, hence cells are followed
here without the operands that they hold.
-/

namespace StraightForth

open Assembly

/-- The primitives whose code makes use of `ebx`. -/
def Primitive.usesBase : Primitive → Bool
  | .modulo | .swap | .tuck => true
  | _ => false

/-- What the code of a primitive leaves in `ebx`, given the two cells on top, the lower one
first. -/
def Primitive.base? : Primitive → Dword → Dword → Option Dword
  | .modulo, _, upper => some upper
  | .swap, lower, _ | .tuck, lower, _ => some lower
  | _, _, _ => none

theorem Primitive.isSome_base? (primitive : Primitive) (lower upper : Dword) :
    (primitive.base? lower upper).isSome = primitive.usesBase := by
  cases primitive <;> rfl

/-- A command makes use of `ebx` if it performs such a primitive. -/
def Command.usesBase : Command → Bool
  | .perform primitive => primitive.usesBase
  | _ => false

namespace Assembly

/-- The visit of a command that makes use of `ebx` and is carried out. -/
def Visit.UsesBase (v : Visit) : Prop :=
  v.turn.command.usesBase ∧ v.emission.fault = none

/-- What a program has in memory. -/
structure Cells where
  /-- The cells of the stack, the top one first. -/
  stack : List Dword
  /-- The cells of the variables. -/
  vars : Nat → Dword

/-- What a machine has in memory. -/
def Machine.memory (m : Machine) : Cells := ⟨m.stack, m.cells⟩

namespace Environment

variable {env : Environment} {shape : Shape} {before middle after : Cells}

/-- Lines lead from some cells to others, whatever else the machine holds, and leave `ebx` as it
is or with a value. -/
def Leads (env : Environment) (labels : Nat) (lines : List TextLine) (before after : Cells)
    (base : Option Dword) : Prop :=
  ∀ m : Machine, m.memory = before → ∃ result, env.Executes labels lines m result ∧
    result.memory = after ∧ result.saved = m.saved ∧
      result.registers.ebx = base.getD m.registers.ebx

section Pieces

variable {labels more : Nat} {first second : List TextLine} {base later : Option Dword}

theorem Leads.append (hfirst : env.Leads labels first before middle base)
    (hsecond : env.Leads more second middle after later) (hmore : labels ≤ more)
    (hlabels : ∀ label, .label label ∈ first → label ≤ more) :
    env.Leads labels (first ++ second) before after (later.or base) := by
  intro m hm
  obtain ⟨halfway, hone, hmemory, hsaved, hebx⟩ := hfirst m hm
  obtain ⟨result, htwo, hend, hkept, hleft⟩ := hsecond halfway hmemory
  refine ⟨result, hone.append htwo hmore hlabels, hend, hkept.trans hsaved, ?_⟩
  rw [hleft, hebx]
  cases later <;> rfl

/-- Lines that spare `ebx` leave it as it is. -/
theorem leads_of_spares (hspares : SparesBase first)
    (h : ∀ m : Machine, m.memory = before → ∃ result, env.Executes labels first m result ∧
      result.memory = after ∧ result.saved = m.saved) :
    env.Leads labels first before after none := by
  intro m hm
  obtain ⟨result, hexecutes, hmemory, hsaved⟩ := h m hm
  exact ⟨result, hexecutes, hmemory, hsaved, hexecutes.keeps.ebx hspares⟩

theorem leads_nil (env : Environment) (labels : Nat) (before : Cells) :
    env.Leads labels [] before before none := by
  apply leads_of_spares
  · intro instruction hmem
    cases hmem
  · intro m hm
    exact ⟨m, executes_nil labels m, hm, rfl⟩

end Pieces

section Printed

/-- Instructions turn a stack into another one and print a text that the stack decides. -/
def Prints (env : Environment) (instructions : List Instruction) (stack left : List Dword) :
    Prop :=
  ∃ text, ∀ m : Machine, m.stack = stack → env.Carries instructions m left text

variable {first second : List Instruction} {stack left last : List Dword}

theorem prints_nil (env : Environment) (stack : List Dword) : env.Prints [] stack stack := by
  refine ⟨[], ?_⟩
  rintro m rfl
  exact carries_nil m

theorem Prints.append (hfirst : env.Prints first stack left)
    (hsecond : env.Prints second left last) : env.Prints (first ++ second) stack last := by
  obtain ⟨text, hfirst⟩ := hfirst
  obtain ⟨later, hsecond⟩ := hsecond
  exact ⟨text ++ later, fun m hm => (hfirst m hm).append hsecond⟩

theorem prints_flatMap {α : Type} {items : List α} {code : α → List Instruction}
    (h : ∀ item ∈ items, env.Prints (code item) stack stack) :
    env.Prints (items.flatMap code) stack stack := by
  induction items with
  | nil => exact prints_nil env stack
  | cons item rest ih =>
      have hrest := ih fun later hlater => h later (List.mem_cons_of_mem item hlater)
      exact (h item List.mem_cons_self).append hrest

end Printed

/-- The code for a command leaves as many cells as the shape after it has slots, and it leaves a
value in `ebx` exactly if it makes use of it. -/
def Settles (env : Environment) (shape : Shape) (emission : Emission) (before : Cells)
    (uses : Prop) : Prop :=
  ∃ (after : Cells) (base : Option Dword), after.stack.length = emission.shape.slots.size ∧
    env.Leads shape.labels emission.lines before after base ∧ (base.isSome ↔ uses)

theorem Settles.congr {emission : Emission} {uses others : Prop}
    (h : env.Settles shape emission before uses) (hiff : uses ↔ others) :
    env.Settles shape emission before others := by
  obtain ⟨after, base, hsize, hleads, hbase⟩ := h
  exact ⟨after, base, hsize, hleads, hbase.trans hiff⟩

/-- Code that spares `ebx` does not make use of it. -/
theorem settles_of_leads {emission : Emission}
    (hsize : after.stack.length = emission.shape.slots.size)
    (hleads : env.Leads shape.labels emission.lines before after none) :
    env.Settles shape emission before False :=
  ⟨after, none, hsize, hleads, by simp⟩

section Commands

theorem sparesBase_code {instructions : List Instruction} :
    SparesBase (instructions.map .code) ↔
      ∀ instruction ∈ instructions, instruction.target? ≠ some .ebx := by
  simp [SparesBase]

/-- A command without code. -/
theorem settles_nothing {emission : Emission} (hlines : emission.lines = [])
    (hsize : before.stack.length = emission.shape.slots.size) :
    env.Settles shape emission before False := by
  apply settles_of_leads hsize
  rw [hlines]
  exact leads_nil env shape.labels before

/-- Code that only looks at the cells, and only changes these and the registers. -/
theorem settles_cells {next : Shape} {instructions : List Instruction} {after : Cells}
    (hsize : after.stack.length = next.slots.size)
    (hspares : ∀ instruction ∈ instructions, instruction.target? ≠ some .ebx)
    (h : ∀ registers entry saved equal output, ∃ registers' equal',
      env.applyAll ⟨registers, entry, before.stack, before.vars, saved, equal, output⟩
          instructions =
        .ok ⟨registers', entry, after.stack, after.vars, saved, equal', output⟩) :
    env.Settles shape (.code next instructions) before False := by
  apply settles_of_leads hsize
  apply leads_of_spares (sparesBase_code.2 hspares)
  rintro m rfl
  obtain ⟨registers', equal', happly⟩ := h m.registers m.entry m.saved m.equal m.output
  exact ⟨_, executes_code shape.labels happly, rfl, rfl⟩

/-- Code that leaves the variables as they are, whatever it prints. -/
theorem settles_of_prints {next : Shape} {instructions : List Instruction} {left : List Dword}
    (hsize : left.length = next.slots.size)
    (hspares : ∀ instruction ∈ instructions, instruction.target? ≠ some .ebx)
    (h : env.Prints instructions before.stack left) :
    env.Settles shape (.code next instructions) before False := by
  have hleft : (Cells.mk left before.vars).stack.length = next.slots.size := hsize
  apply settles_of_leads hleft
  apply leads_of_spares (sparesBase_code.2 hspares)
  rintro m rfl
  obtain ⟨text, hcarries⟩ := h
  obtain ⟨result, happly, hcontinues⟩ := hcarries m rfl
  refine ⟨result, executes_code shape.labels happly, ?_, hcontinues.saved⟩
  rw [Machine.memory, hcontinues.stack, hcontinues.cells]
  rfl

theorem settles_release {next : Shape} {taken : Nat}
    (hsize : before.stack.length = next.slots.size + taken) :
    env.Settles shape (.code next [.release taken]) before False := by
  have hleft : (before.stack.drop taken).length = next.slots.size := by
    rw [List.length_drop]
    omega
  refine settles_of_prints hleft (by simp [Instruction.target?]) ⟨[], fun m hm => ?_⟩
  rw [← hm] at hsize ⊢
  exact carries_release (by omega)

/-- Operands that are refused are taken off. -/
theorem settles_refused {next : Shape} {taken : Nat} (fault : Fault)
    (hsize : before.stack.length = next.slots.size + taken) :
    env.Settles shape (.refused next taken fault) before False :=
  show env.Settles shape (.code next [.release taken]) before False from settles_release hsize

theorem settles_dup (hsize : before.stack.length = shape.slots.size) :
    env.Settles shape shape.dup before False := by
  obtain ⟨⟨slots⟩, names, vars, labels⟩ := shape
  obtain ⟨stack, values⟩ := before
  cases slots with
  | nil => exact settles_nothing rfl hsize
  | cons top slots =>
      obtain ⟨cell, cells, rfl⟩ := List.exists_of_length_succ stack hsize
      have hcells : (Cells.mk (cell :: cell :: cells) values).stack.length =
          (top :: top :: slots).length := congrArg (· + 1) hsize
      exact settles_cells hcells (by simp [Instruction.target?]) fun _ _ _ _ _ => ⟨_, _, rfl⟩

theorem settles_drop (hsize : before.stack.length = shape.slots.size) :
    env.Settles shape shape.drop before False := by
  obtain ⟨⟨slots⟩, names, vars, labels⟩ := shape
  cases slots with
  | nil => exact settles_nothing rfl hsize
  | cons top slots => exact settles_release hsize

theorem settles_copySecond (hsize : before.stack.length = shape.slots.size) :
    env.Settles shape shape.copySecond before False := by
  obtain ⟨⟨slots⟩, names, vars, labels⟩ := shape
  obtain ⟨stack, values⟩ := before
  rcases slots with _ | ⟨top, _ | ⟨second, slots⟩⟩
  · exact settles_nothing rfl hsize
  · exact settles_nothing rfl hsize
  · obtain ⟨upper, below, rfl⟩ := List.exists_of_length_succ stack hsize
    obtain ⟨lower, cells, rfl⟩ := List.exists_of_length_succ below (Nat.succ.inj hsize)
    have hcells : (Cells.mk (lower :: upper :: lower :: cells) values).stack.length =
        (second :: top :: second :: slots).length := congrArg (· + 1) hsize
    exact settles_cells hcells (by simp [Instruction.target?]) fun _ _ _ _ _ => ⟨_, _, rfl⟩

theorem settles_negate (hsize : before.stack.length = shape.slots.size) :
    env.Settles shape shape.negate before False := by
  obtain ⟨⟨slots⟩, names, vars, labels⟩ := shape
  obtain ⟨stack, values⟩ := before
  rcases slots with _ | ⟨_ | x, slots⟩
  · exact settles_nothing rfl hsize
  · obtain ⟨cell, cells, rfl⟩ := List.exists_of_length_succ stack hsize
    have hcells : (Cells.mk (-cell :: cells) values).stack.length =
        (Slot.integer :: slots).length := hsize
    exact settles_cells hcells (by simp [Instruction.target?]) fun _ _ _ _ _ => ⟨_, _, rfl⟩
  · exact settles_refused _ hsize

theorem settles_fetch (hsize : before.stack.length = shape.slots.size) :
    env.Settles shape shape.fetch before False := by
  obtain ⟨⟨slots⟩, names, vars, labels⟩ := shape
  obtain ⟨stack, values⟩ := before
  rcases slots with _ | ⟨_ | x, slots⟩
  · exact settles_nothing rfl hsize
  · exact settles_refused _ hsize
  · simp only [Shape.fetch, Stack.pop, Shape.target_name]
    by_cases hx : x ∈ vars
    · simp only [hx, if_true]
      obtain ⟨cell, cells, rfl⟩ := List.exists_of_length_succ stack hsize
      have hcells : (Cells.mk (values (vars.idxOf x) :: cells) values).stack.length =
          (Slot.integer :: slots).length := hsize
      exact settles_cells hcells (by simp [Instruction.target?]) fun _ _ _ _ _ => ⟨_, _, rfl⟩
    · simp only [hx, if_false]
      exact settles_refused _ hsize

/-- The code of an assignment takes the name and the value off, and changes a variable. -/
theorem settles_store (hsize : before.stack.length = shape.slots.size) :
    env.Settles shape shape.store before False := by
  obtain ⟨⟨slots⟩, names, vars, labels⟩ := shape
  obtain ⟨stack, values⟩ := before
  rcases slots with _ | ⟨operand, _ | ⟨value, slots⟩⟩
  · exact settles_nothing rfl hsize
  · exact settles_nothing rfl hsize
  · simp only [Shape.store, Stack.popTwo]
    cases hassign : Shape.assignment _ operand value with
    | error fault => exact settles_refused fault hsize
    | ok index =>
        obtain ⟨upper, below, rfl⟩ := List.exists_of_length_succ stack hsize
        obtain ⟨lower, cells, rfl⟩ := List.exists_of_length_succ below (Nat.succ.inj hsize)
        have hcells : (Cells.mk cells (Function.update values index lower)).stack.length =
            slots.length := Nat.succ.inj (Nat.succ.inj hsize)
        exact settles_cells hcells (by simp [Instruction.target?]) fun _ _ _ _ _ => ⟨_, _, rfl⟩

end Commands

section Printing

variable {stack cells : List Dword} {cell : Dword}

theorem prints_format (h : env.HasFormats) {format : Format}
    (hplain : '%'.toUInt8 ∉ format.bytes) : env.Prints (printFormat format) stack stack := by
  refine ⟨format.bytes, ?_⟩
  rintro m rfl
  exact carries_printFormat h hplain

/-- Every cell is printed by the directive for a slot, whatever operand it holds. -/
theorem prints_top (h : env.HasFormats) {format : Format} {slot : Slot} {rest : List UInt8}
    (hbytes : format.bytes = '%'.toUInt8 :: slot.letter :: rest) (hrest : '%'.toUInt8 ∉ rest) :
    env.Prints (printTop format) (cell :: cells) cells := by
  have hdirective : ∃ text, env.directive slot.letter cell = .ok text := by
    cases slot with
    | integer => exact ⟨_, rfl⟩
    | name x => exact ⟨_, rfl⟩
  obtain ⟨text, hdirective⟩ := hdirective
  refine ⟨text ++ rest, fun m hm => carries_printTop h hm ?_⟩
  rw [hbytes]
  exact expand_directive hdirective hrest cells

theorem prints_item (h : env.HasFormats) (slot : Slot) {depth : Nat}
    (hdepth : depth < stack.length) :
    env.Prints (.pushMemory (.below depth) :: printTop slot.itemFormat) stack stack := by
  obtain ⟨text, htop⟩ : env.Prints (printTop slot.itemFormat) (stack[depth] :: stack) stack :=
    prints_top h slot.bytes_itemFormat List.not_mem_nil
  refine ⟨text, ?_⟩
  rintro m rfl
  have hpush : env.apply m (.pushMemory (.below depth)) = .ok (m.push m.stack[depth]) := by
    simp only [apply, Machine.read, Machine.cell, List.getElem?_eq_getElem hdepth]
    rfl
  exact Carries.push hpush (htop _ rfl)

theorem settles_print (h : env.HasFormats) (hsize : before.stack.length = shape.slots.size) :
    env.Settles shape shape.print before False := by
  obtain ⟨⟨slots⟩, names, vars, labels⟩ := shape
  obtain ⟨stack, values⟩ := before
  cases slots with
  | nil => exact settles_nothing rfl hsize
  | cons top slots =>
      obtain ⟨cell, cells, rfl⟩ := List.exists_of_length_succ stack hsize
      have hcells : cells.length = slots.length := Nat.succ.inj hsize
      have hprints : env.Prints (printTop top.lineFormat) (cell :: cells) cells :=
        prints_top h top.bytes_lineFormat (by decide)
      exact settles_of_prints hcells (by simp [printTop, Instruction.target?]) hprints

/-- A dump leaves the stack as it is. -/
theorem settles_printStack (h : env.HasFormats)
    (hsize : before.stack.length = shape.slots.size) :
    env.Settles shape shape.printStack before False := by
  have hopen : env.Prints (printFormat .dumpOpen) before.stack before.stack :=
    prints_format h (by decide +kernel)
  have hseparator : env.Prints (printFormat .dumpSeparator) before.stack before.stack :=
    prints_format h (by decide +kernel)
  have hclose : env.Prints (printFormat .dumpClose) before.stack before.stack :=
    prints_format h (by decide +kernel)
  have hitem (slot : Slot) (index : Nat) (hindex : index < shape.slots.size) :
      env.Prints ((if index = 0 then [] else printFormat .dumpSeparator) ++
        .pushMemory (.below (shape.slots.size - 1 - index)) :: printTop slot.itemFormat)
        before.stack before.stack := by
    have hlast := prints_item h slot (by omega : shape.slots.size - 1 - index < before.stack.length)
    by_cases hzero : index = 0
    · rw [if_pos hzero]
      exact hlast
    · rw [if_neg hzero]
      exact hseparator.append hlast
  refine settles_of_prints hsize ?_ ((hopen.append (prints_flatMap ?_)).append hclose)
  · have hformat (format : Format) :
        ∀ instruction ∈ printFormat format, instruction.target? ≠ some .ebx := by
      simp [printFormat, Instruction.target?]
    simp only [List.forall_mem_append, List.forall_mem_flatMap]
    refine ⟨⟨hformat _, ?_⟩, hformat _⟩
    rintro ⟨slot, index⟩ _
    constructor
    · split
      · exact List.forall_mem_nil _
      · exact hformat _
    · simp [printTop, Instruction.target?]
  · rintro ⟨slot, index⟩ hmem
    apply hitem
    have hplace := List.mem_zipIdx_iff_getElem?.1 hmem
    have hlength := (List.getElem?_eq_some_iff.1 hplace).1
    rwa [Stack.bottomUp, List.length_reverse] at hlength

end Printing

section Arrangements

variable {primitive : Primitive} {results : Int32 → Int32 → List Int32} {slots : List Slot}

variable (env) in
/-- Two integers on top are replaced by the results, and one of them may stay in `ebx`. -/
theorem leads_arrangement (hresults : primitive.arrangement? = some results)
    (hslots : shape.slots.items = .integer :: .integer :: slots) (left right : Int32)
    (rest : List Dword) (values : Nat → Dword) :
    env.Leads shape.labels (shape.perform primitive).lines
      ⟨right.toBitVec :: left.toBitVec :: rest, values⟩
      ⟨(results left right).reverse.map Int32.toBitVec ++ rest, values⟩
      (primitive.base? left.toBitVec right.toBitVec) := by
  have hexecutes (m : Machine)
      (hm : m.memory = ⟨right.toBitVec :: left.toBitVec :: rest, values⟩) :
      ∃ result, env.Executes shape.labels (shape.perform primitive).lines m result ∧
        result.memory = ⟨(results left right).reverse.map Int32.toBitVec ++ rest, values⟩ ∧
          result.saved = m.saved := by
    obtain ⟨hstack, rfl⟩ := Cells.mk.inj hm
    obtain ⟨result, hexecutes, hcontinues⟩ := executes_arrangement hresults hslots hstack
    refine ⟨result, hexecutes, ?_, hcontinues.saved⟩
    rw [Machine.memory, hcontinues.stack, hcontinues.cells]
  obtain ⟨⟨items⟩, names, vars, labels⟩ := shape
  obtain rfl : items = _ := hslots
  cases primitive with
  | add | subtract | multiply | nip =>
      apply leads_of_spares _ hexecutes
      exact sparesBase_code.2 (by simp [Instruction.target?])
  | swap | tuck =>
      obtain rfl := Option.some.inj hresults
      rintro ⟨registers, entry, stack, cells, saved, equal, output⟩ hm
      obtain ⟨rfl, rfl⟩ := Cells.mk.inj hm
      exact ⟨_, executes_code labels rfl, rfl, rfl, rfl⟩
  | modulo =>
      obtain rfl := Option.some.inj hresults
      intro m hm
      obtain ⟨hstack, rfl⟩ := Cells.mk.inj hm
      obtain ⟨result, hexecutes, hcontinues, hebx⟩ := executes_remainder labels hstack
      refine ⟨result, hexecutes, ?_, hcontinues.saved, hebx⟩
      rw [Machine.memory, hcontinues.stack, hcontinues.cells]
      rfl
  | _ => cases hresults

/-- Only a primitive that is carried out makes use of `ebx`. -/
theorem settles_arrangement (hresults : primitive.arrangement? = some results)
    (hsize : before.stack.length = shape.slots.size) :
    env.Settles shape (shape.perform primitive) before
      (primitive.usesBase ∧ (shape.perform primitive).fault = none) := by
  obtain ⟨count, more, lines, heq, hcount⟩ := shape.perform_eq_replaceTwo hresults
  obtain ⟨⟨items⟩, names, vars, labels⟩ := shape
  obtain ⟨stack, values⟩ := before
  rcases items with _ | ⟨top, _ | ⟨second, slots⟩⟩
  · rw [heq, Shape.replaceTwo_eq]
    exact (settles_nothing rfl hsize).congr (by simp [Emission.abandoned])
  · rw [heq, Shape.replaceTwo_eq]
    cases top <;> exact (settles_nothing rfl hsize).congr (by simp [Emission.abandoned])
  · cases top with
    | name x =>
        rw [heq, Shape.replaceTwo_eq]
        exact (settles_refused _ hsize).congr (by simp [Emission.refused])
    | integer =>
        cases second with
        | name x =>
            rw [heq, Shape.replaceTwo_eq]
            exact (settles_refused _ hsize).congr (by simp [Emission.refused])
        | integer =>
            obtain ⟨upper, below, rfl⟩ := List.exists_of_length_succ stack hsize
            obtain ⟨lower, cells, rfl⟩ := List.exists_of_length_succ below (Nat.succ.inj hsize)
            have hcells : cells.length = slots.length := Nat.succ.inj (Nat.succ.inj hsize)
            have hleads := leads_arrangement env hresults
              (rfl : (Shape.mk ⟨.integer :: .integer :: slots⟩ names vars labels).slots.items = _)
              (.ofBitVec lower) (.ofBitVec upper) cells values
            refine ⟨_, _, ?_, hleads, ?_⟩
            · rw [heq, Shape.replaceTwo_eq]
              simp [Stack.size, Stack.items_pushAll, hcount, hcells]
            · rw [heq, Shape.replaceTwo_eq, primitive.isSome_base?]
              simp

end Arrangements

section Runs

/-- The code for every command settles the cells. -/
theorem settles_execute (h : env.HasFormats) (command : Command)
    (hsize : before.stack.length = shape.slots.size) :
    env.Settles shape (shape.execute command) before
      (command.usesBase ∧ (shape.execute command).fault = none) := by
  have hspared {emission : Emission} (hsettles : env.Settles shape emission before False)
      (hcommand : command.usesBase = false) :
      env.Settles shape emission before (command.usesBase ∧ emission.fault = none) :=
    hsettles.congr (by simp [hcommand])
  cases command with
  | push operand =>
      cases operand with
      | integer value =>
          have hcells : (Cells.mk (value.toBitVec :: before.stack) before.vars).stack.length =
              (shape.slots.push .integer).size := congrArg (· + 1) hsize
          refine hspared (settles_cells hcells ?_ fun _ _ _ _ _ => ⟨_, _, rfl⟩) rfl
          simp [Instruction.target?]
      | name x =>
          have hcells : (Cells.mk (env.address (.name (shape.nameIndex x)) :: before.stack)
              before.vars).stack.length = (shape.slots.push (.name x)).size :=
            congrArg (· + 1) hsize
          refine hspared (settles_cells hcells ?_ fun _ _ _ _ _ => ⟨_, _, rfl⟩) rfl
          simp [Instruction.target?]
  | perform primitive =>
      cases harrangement : primitive.arrangement? with
      | some results => exact settles_arrangement harrangement hsize
      | none =>
          cases primitive with
          | store => exact hspared (settles_store hsize) rfl
          | fetch => exact hspared (settles_fetch hsize) rfl
          | dup => exact hspared (settles_dup hsize) rfl
          | drop => exact hspared (settles_drop hsize) rfl
          | copySecond => exact hspared (settles_copySecond hsize) rfl
          | negate => exact hspared (settles_negate hsize) rfl
          | print => exact hspared (settles_print h hsize) rfl
          | printStack => exact hspared (settles_printStack h hsize) rfl
          | _ => cases harrangement
  | declare name =>
      apply hspared (settles_nothing rfl _) rfl
      rw [hsize]
      simp only [Shape.execute, Emission.nothing, Shape.declare]
      split <;> rfl
  | declareNothing => exact hspared (settles_nothing rfl hsize) rfl
  | declareReserved token column => exact hspared (settles_nothing rfl hsize) rfl

/-- The code that is emitted in a shape settles whatever cells it finds, and its labels are those
that the shape after it knows. -/
structure Proceeds (env : Environment) (shape : Shape) (emission : Emission) (uses : Prop) :
    Prop where
  labels : shape.labels ≤ emission.shape.labels
  lines : ∀ label, .label label ∈ emission.lines → label ≤ emission.shape.labels
  settles (before : Cells) (hsize : before.stack.length = shape.slots.size) :
    env.Settles shape emission before uses

theorem proceeds_nothing (env : Environment) (shape : Shape) :
    env.Proceeds shape (.nothing shape) False where
  labels := Nat.le_refl _
  lines _ hlabel := absurd hlabel List.not_mem_nil
  settles _ hsize := settles_nothing rfl hsize

theorem Proceeds.append {first second : Emission} {uses later : Prop}
    (hfirst : env.Proceeds shape first uses) (hsecond : env.Proceeds first.shape second later) :
    env.Proceeds shape ⟨second.shape, first.lines ++ second.lines, none⟩ (uses ∨ later) where
  labels := Nat.le_trans hfirst.labels hsecond.labels
  lines label hlabel := by
    rcases List.mem_append.1 hlabel with hlabel | hlabel
    · exact Nat.le_trans (hfirst.lines label hlabel) hsecond.labels
    · exact hsecond.lines label hlabel
  settles before hsize := by
    obtain ⟨middle, base, hmiddle, hleads, hbase⟩ := hfirst.settles before hsize
    obtain ⟨after, last, hafter, hled, hlast⟩ := hsecond.settles middle hmiddle
    refine ⟨after, last.or base, hafter, ?_, ?_⟩
    · exact hleads.append hled hfirst.labels hfirst.lines
    · rw [Option.isSome_or, Bool.or_eq_true, hbase, hlast, or_comm]

theorem Proceeds.congr {emission : Emission} {uses others : Prop}
    (h : env.Proceeds shape emission uses) (hiff : uses ↔ others) :
    env.Proceeds shape emission others :=
  ⟨h.labels, h.lines, fun before hsize => (h.settles before hsize).congr hiff⟩

theorem proceeds_visit (h : env.HasFormats) (v : Visit) :
    env.Proceeds v.found v.emission v.UsesBase := by
  have hextends := v.found.extends_execute v.turn.command
  exact ⟨hextends.labels, fun label hlabel => hextends.lines _ hlabel,
    fun before hsize => settles_execute h v.turn.command hsize⟩

/-- The code for the turns of a source. -/
theorem proceeds_visits (h : env.HasFormats) (shape : Shape) (turns : List Turn) :
    env.Proceeds shape
      ⟨shape.after turns, (shape.visits turns).flatMap fun v => v.emission.lines, none⟩
      (∃ v ∈ shape.visits turns, v.UsesBase) := by
  induction turns generalizing shape with
  | nil => exact (proceeds_nothing env shape).congr (by simp [Shape.visits])
  | cons turn rest ih =>
      apply ((proceeds_visit h ⟨shape, turn⟩).append (ih _)).congr
      simp [Shape.visits, Visit.emission]

end Runs

end Environment

section Whole

variable {env : Environment} {listing : Listing} {source : String}

/-- What `main` leaves in the registers, but for `ebx`: zero to return, and whatever belongs to
the caller as it was. -/
structure Machine.Honours (m : Machine) (registers : Registers) (pointer : Dword) : Prop where
  eax : m.get .eax = 0
  esp : m.get .esp = pointer
  esi : m.registers.esi = registers.esi
  edi : m.registers.edi = registers.edi
  ebp : m.registers.ebp = registers.ebp

/-- `main` comes to its end from everywhere. What it leaves in `ebx` is decided by the source, or
is what was there. -/
theorem exists_end {recover : Bool} (hcompile : compile recover source = .ok listing)
    (hformats : env.HasFormats) :
    ∃ base : Option Dword,
      (base.isSome ↔ ∃ v ∈ Shape.empty.visits (Turn.ofSource source), v.UsesBase) ∧
      ∀ registers pointer, ∃ last : Configuration,
        env.Reaches listing.program ⟨0, .enter registers pointer⟩ last ∧
        env.step listing.program last = .error .returned ∧
        last.machine.Honours registers pointer ∧
        last.machine.registers.ebx = base.getD registers.ebx := by
  have hproceeds := Environment.proceeds_visits hformats Shape.empty (Turn.ofSource source)
  obtain ⟨after, base, _, hleads, hbase⟩ := hproceeds.settles ⟨[], fun _ => 0⟩ rfl
  rw [← assembled_eq_visits hcompile] at hleads
  refine ⟨base, hbase, fun registers pointer => ?_⟩
  obtain ⟨m, hexecutes, _, hsaved, hebx⟩ := hleads (.entered registers pointer) rfl
  have hkeeps := hexecutes.keeps
  obtain ⟨hend, hreturn⟩ := listing.reaches_finished env (hsaved.trans hkeeps.entry.symm)
  refine ⟨_, (Listing.reaches_bottom hexecutes).trans hend, hreturn, ?_, hebx⟩
  exact ⟨rfl, m.finished.pointerAt_zero.trans hkeeps.entry, hkeeps.esi, hkeeps.edi, hkeeps.ebp⟩

theorem exists_mem_iff_of_forall₂ {α β : Type} {R : α → β → Prop} {p : α → Prop} {q : β → Prop}
    {first : List α} {second : List β} (h : List.Forall₂ R first second)
    (hiff : ∀ a b, R a b → (p a ↔ q b)) : (∃ a ∈ first, p a) ↔ ∃ b ∈ second, q b := by
  induction h with
  | nil => simp
  | cons hhead _ ih => simp [hiff _ _ hhead, ih]

/-- A visit makes use of `ebx` when its dispatch does. -/
theorem Visit.Describes.usesBase_iff {v : Visit} {d : Dispatch} (h : v.Describes d) :
    v.UsesBase ↔ d.turn.command.usesBase ∧ d.effect.2.fault? = none := by
  have hfault := (h.found.execute d.turn.command).fault
  rw [Visit.UsesBase, Visit.emission, h.turn, hfault, Option.map_eq_none_iff]
  rfl

end Whole

end Assembly

/-- The `main` that is assembled from the rows of a file goes back to its caller from everywhere,
and nothing else can stop it. It returns zero with the stack pointer where it was, and keeps `esi`,
`edi` and `ebp`. It keeps `ebx` for every caller exactly if no remainder and no exchange or tuck of
two integers is carried out in a run of the source. -/
theorem main_returns (options : Options) {source : String} {listing : Listing}
    (hcompile : compile options.recover source = .ok listing) :
    ∃ image, Image.ofRows? (Text.rows listing.render) = some image ∧
      ∀ env : Environment, env.Loads image →
        (∀ registers pointer,
          (∃ last, env.Reaches image.main ⟨0, .enter registers pointer⟩ last ∧
            env.step image.main last = .error .returned) ∧
          ∀ last stop, env.Reaches image.main ⟨0, .enter registers pointer⟩ last →
            env.step image.main last = .error stop →
              stop = .returned ∧ last.machine.Honours registers pointer) ∧
        ((∀ registers pointer last, env.Reaches image.main ⟨0, .enter registers pointer⟩ last →
            env.step image.main last = .error .returned →
              last.machine.registers.ebx = registers.ebx) ↔
          ∀ d ∈ (Session.new options).dispatches (Turn.ofSource source),
            d.turn.command.usesBase → d.effect.2.fault? ≠ none) := by
  refine ⟨listing.image, compile_assembles hcompile, fun env hloads => ?_⟩
  obtain ⟨base, hbase, hend⟩ := exists_end hcompile hloads.formats
  constructor
  · intro registers pointer
    obtain ⟨last, hreaches, hreturn, hhonours, _⟩ := hend registers pointer
    refine ⟨⟨last, hreaches, hreturn⟩, fun other stop hother hstop => ?_⟩
    obtain ⟨rfl, hsame⟩ := Environment.eq_of_reaches_of_stop hreaches hreturn hother hstop
    exact ⟨hsame, hhonours⟩
  · have hkept : (∀ registers pointer last,
        env.Reaches listing.program ⟨0, .enter registers pointer⟩ last →
        env.step listing.program last = .error .returned →
          last.machine.registers.ebx = registers.ebx) ↔ base = none := by
      constructor
      · intro hall
        by_contra hsome
        obtain ⟨value, rfl⟩ := Option.ne_none_iff_exists'.1 hsome
        -- Whatever value is left, some caller had another one.
        let registers : Registers := ⟨0, value + 1, 0, 0, 0, 0, 0⟩
        obtain ⟨last, hreaches, hreturn, _, hebx⟩ := hend registers 0
        have hsame : value = value + 1 := hebx.symm.trans (hall registers 0 last hreaches hreturn)
        bv_omega
      · rintro rfl registers pointer other hother hstop
        obtain ⟨last, hreaches, hreturn, _, hebx⟩ := hend registers pointer
        obtain ⟨rfl, _⟩ := Environment.eq_of_reaches_of_stop hreaches hreturn hother hstop
        exact hebx
    refine hkept.trans ?_
    rw [← Option.not_isSome_iff_eq_none, hbase,
      exists_mem_iff_of_forall₂ (visits_describe_dispatches options hcompile) fun v d hd =>
        hd.usesBase_iff]
    simp only [not_exists, not_and]

/-- A sum makes no use of `ebx`, and the text with the character zero does not matter. -/
theorem main_returns_after_sum :
    ∃ listing image, compile false "a\x00b . 1 2 + ." = .ok listing ∧
      Image.ofRows? (Text.rows listing.render) = some image ∧
      (Environment.laidOut image).Loads image ∧
      ∀ registers pointer last,
        (Environment.laidOut image).Reaches image.main ⟨0, .enter registers pointer⟩ last →
        (Environment.laidOut image).step image.main last = .error .returned →
          last.machine.Honours registers pointer ∧
            last.machine.registers.ebx = registers.ebx := by
  have hnames : (compile false "a\x00b . 1 2 + .").toOption.map Listing.names =
      some ["a\x00b"] := by
    decide +kernel
  have hspared : ∀ d ∈ (Session.new {}).dispatches (Turn.ofSource "a\x00b . 1 2 + ."),
      d.turn.command.usesBase → d.effect.2.fault? ≠ none := by
    decide +kernel
  cases hcompile : compile false "a\x00b . 1 2 + ." with
  | error fatal =>
      rw [hcompile] at hnames
      cases hnames
  | ok listing =>
      rw [hcompile] at hnames
      have hroom : listing.names.length + 7 ≤ UInt32.size := by
        rw [Option.some.inj hnames]
        decide
      have hloads := Listing.loads_laidOut hroom
      have hassembled := compile_assembles hcompile
      obtain ⟨image, himage, hruns⟩ := main_returns {} hcompile
      obtain rfl : listing.image = image := Option.some.inj (hassembled.symm.trans himage)
      obtain ⟨hreturns, hebx⟩ := hruns _ hloads
      refine ⟨listing, _, rfl, himage, hloads, fun registers pointer last hreaches hreturn => ?_⟩
      exact ⟨((hreturns registers pointer).2 last _ hreaches hreturn).2,
        hebx.2 hspared registers pointer last hreaches hreturn⟩

/-- An exchange of two integers leaves the lower one in `ebx`, whatever the caller had there. -/
theorem base_lost :
    ∃ listing image, compile false "1 2 swap" = .ok listing ∧
      Image.ofRows? (Text.rows listing.render) = some image ∧
      (Environment.laidOut image).Loads image ∧
      ∃ last, (Environment.laidOut image).Reaches image.main
          ⟨0, .enter ⟨0, 3, 0, 0, 0, 0, 0⟩ 0xbffff000⟩ last ∧
        (Environment.laidOut image).step image.main last = .error .returned ∧
        last.machine.registers.ebx = 1 := by
  let code : List Instruction :=
    [.pushInt 1, .pushInt 2, .pop .eax, .pop .ebx, .pushRegister .eax, .pushRegister .ebx]
  let listing : Listing :=
    ⟨(Line.ofSource "1 2 swap").map .source ++ code.map .code, [], [], []⟩
  have hcompile : compile false "1 2 swap" = .ok listing := by decide +kernel
  have hassembled : listing.assembled = code.map .code := by decide +kernel
  let start : Machine := .entered ⟨0, 3, 0, 0, 0, 0, 0⟩ 0xbffff000
  let result : Machine :=
    { start with registers := { start.registers with eax := 2, ebx := 1 }, stack := [1, 2] }
  let env := Environment.laidOut listing.image
  have hcode : env.applyAll start code = .ok result := rfl
  have hexecutes : env.Executes 0 listing.assembled start result := by
    rw [hassembled]
    exact Environment.executes_code 0 hcode
  obtain ⟨hend, hreturn⟩ := listing.reaches_finished env (rfl : result.saved = result.entry)
  exact ⟨listing, listing.image, hcompile, compile_assembles hcompile,
    Listing.loads_laidOut (by decide), _, (Listing.reaches_bottom hexecutes).trans hend, hreturn,
    rfl⟩

end StraightForth
