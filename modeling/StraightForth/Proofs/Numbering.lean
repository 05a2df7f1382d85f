import StraightForth.Proofs.Visits

/-!
# The numbers of names, variables and labels

Names and variables are numbered in the order in which a source first has them, and keep their
numbers. A label is used for one remainder only. The main statements tell these numbers from the
turns of a source, and an instruction that has one of them from the command it is emitted for.
-/

namespace StraightForth

namespace Command

/-- The name that a command pushes. -/
def pushed? : Command → Option String
  | .push (.name x) => some x
  | _ => none

/-- The name that a command declares. -/
def declared? : Command → Option String
  | .declare x => some x
  | _ => none

end Command

namespace Turn

/-- The name that is dispatched as an operand. -/
def pushed? (turn : Turn) : Option String :=
  match turn.token.item with
  | .ident x => some x
  | _ => none

/-- The name that a declaring word takes. -/
def declared? (turn : Turn) : Option String :=
  match turn.token.item, turn.rest with
  | .word .declare, ⟨_, .ident x⟩ :: _ => some x
  | _, _ => none

theorem pushed?_command (turn : Turn) : turn.command.pushed? = turn.pushed? := by
  obtain ⟨line, ⟨column, item⟩, rest⟩ := turn
  cases item with
  | literal value => rfl
  | ident name => rfl
  | word word =>
      simp only [command, pushed?]
      split
      · rfl
      · rcases rest with _ | ⟨⟨_, _ | _ | _⟩, _⟩ <;> rfl

theorem declared?_command (turn : Turn) : turn.command.declared? = turn.declared? := by
  obtain ⟨line, ⟨column, item⟩, rest⟩ := turn
  cases item with
  | literal value => rfl
  | ident name => rfl
  | word word =>
      cases word with
      | declare => rcases rest with _ | ⟨⟨_, _ | _ | _⟩, _⟩ <;> rfl
      | _ => rfl

end Turn

namespace Assembly

section Emissions

/-- The instructions that are always the same. -/
def Instruction.fixed : List Instruction :=
  Format.all.map (fun format => .pushAddress (.format format)) ++
    [.pushRegister .eax, .pushRegister .ebx, .pushRegister .edx, .pushMemory .top, .pop .eax,
      .pop .ebx, .addTo .top .eax, .subtractFrom .top .eax, .multiplyBy .eax .top, .negate .top,
      .save .top .eax, .zero .edx, .compare .ebx 0, .compare .ebx (-1), .extendSign, .divide .ebx,
      .callPrintf]

/-- An instruction that computes or prints. It names no symbol but a format, and no label. -/
def Instruction.isPlain : Instruction → Bool
  | .pushInt _ | .pushMemory (.below _) | .release _ => true
  | instruction => instruction ∈ fixed

theorem all_isPlain_printFormat (format : Format) :
    (printFormat format).all Instruction.isPlain = true := by
  cases format <;> decide

theorem all_isPlain_printTop (format : Format) :
    (printTop format).all Instruction.isPlain = true := by
  cases format <;> decide

namespace Shape

/-- The lines that a command may be compiled to, with the numbers in them. -/
inductive Emits (shape : Shape) : Command → TextLine → Prop
  | plain (command : Command) {instruction : Instruction} (h : instruction.isPlain = true) :
      Emits shape command (.code instruction)
  | push (x : String) :
      Emits shape (.push (.name x)) (.code (.pushAddress (.name (shape.nameIndex x))))
  | save {x : String} {rest : List Slot} (hitems : shape.slots.items = .name x :: rest)
      (hx : x ∈ shape.vars) :
      Emits shape (.perform .store) (.code (.save (.symbol (.cell (shape.vars.idxOf x))) .eax))
  | load {x : String} {rest : List Slot} (hitems : shape.slots.items = .name x :: rest)
      (hx : x ∈ shape.vars) :
      Emits shape (.perform .fetch) (.code (.load .eax (.symbol (.cell (shape.vars.idxOf x)))))
  | jump : Emits shape (.perform .modulo) (.code (.skipIfEqual (shape.labels + 1)))
  | label : Emits shape (.perform .modulo) (.label (shape.labels + 1))

variable {shape : Shape} {command : Command}

theorem emits_of_all (instructions : List Instruction)
    (h : instructions.all Instruction.isPlain = true) {line : TextLine}
    (hline : line ∈ instructions.map .code) : shape.Emits command line := by
  obtain ⟨instruction, hmem, rfl⟩ := List.mem_map.1 hline
  exact .plain command (List.all_eq_true.1 h instruction hmem)

/-- Two operands are replaced by the given lines, or taken without effect, or missing. -/
theorem replaceTwo_cases (shape : Shape) (results more : Nat) (lines : List TextLine) :
    ∃ slots,
      ((shape.replaceTwo results more lines).shape = { shape with slots } ∧
        ((shape.replaceTwo results more lines).lines = [] ∨
          (shape.replaceTwo results more lines).lines = [.code (.release 2)])) ∨
      ((shape.replaceTwo results more lines).shape =
          { shape with slots, labels := shape.labels + more } ∧
        (shape.replaceTwo results more lines).lines = lines) := by
  simp only [replaceTwo]
  split
  · exact ⟨_, .inl ⟨rfl, .inl rfl⟩⟩
  · split
    · exact ⟨_, .inl ⟨rfl, .inr rfl⟩⟩
    · exact ⟨_, .inr ⟨rfl, rfl⟩⟩

theorem emits_replaceTwo {results more : Nat} {lines : List TextLine}
    (h : ∀ line ∈ lines, shape.Emits command line) :
    ∀ line ∈ (shape.replaceTwo results more lines).lines, shape.Emits command line := by
  intro line hline
  obtain ⟨_, ⟨_, hlines | hlines⟩ | ⟨_, hlines⟩⟩ := shape.replaceTwo_cases results more lines
  · rw [hlines] at hline
    cases hline
  · rw [hlines] at hline
    obtain rfl := List.mem_singleton.1 hline
    exact .plain command rfl
  · rw [hlines] at hline
    exact h line hline

theorem emits_modulo :
    ∀ line ∈ shape.modulo.lines, shape.Emits (.perform .modulo) line := by
  apply emits_replaceTwo
  intro line hline
  rcases List.mem_append.1 hline with hline | hline
  · simp only [List.map_cons, List.map_nil, List.mem_cons, List.not_mem_nil, or_false] at hline
    rcases hline with rfl | rfl | rfl | rfl | rfl | rfl | rfl | rfl | rfl
    case inr.inr.inr.inr.inl => exact .jump
    case inr.inr.inr.inr.inr.inr.inl => exact .jump
    all_goals exact .plain _ (by decide)
  · rcases List.mem_pair.1 hline with rfl | rfl
    · exact .label
    · exact .plain _ (by decide)

theorem emits_store : ∀ line ∈ shape.store.lines, shape.Emits (.perform .store) line := by
  obtain ⟨⟨slots⟩, names, vars, labels⟩ := shape
  intro line hline
  rcases slots with _ | ⟨target, _ | ⟨value, rest⟩⟩
  · cases hline
  · cases hline
  · simp only [store, Stack.popTwo, assignment_eq] at hline
    cases target with
    | integer => exact emits_of_all [.release 2] rfl hline
    | name x =>
        by_cases hx : x ∈ vars
        · cases value with
          | integer =>
              simp only [if_pos hx, Emission.code, List.map_cons, List.map_nil, List.mem_cons,
                List.not_mem_nil, or_false] at hline
              rcases hline with rfl | rfl | rfl
              · exact .plain _ rfl
              · exact .plain _ rfl
              · exact .save rfl hx
          | name y =>
              simp only [if_pos hx] at hline
              exact emits_of_all [.release 2] rfl hline
        · cases value with
          | integer | name _ =>
              simp only [if_neg hx] at hline
              exact emits_of_all [.release 2] rfl hline

theorem emits_fetch : ∀ line ∈ shape.fetch.lines, shape.Emits (.perform .fetch) line := by
  obtain ⟨⟨slots⟩, names, vars, labels⟩ := shape
  intro line hline
  rcases slots with _ | ⟨_ | x, rest⟩
  · cases hline
  · exact emits_of_all [.release 1] rfl hline
  · simp only [fetch, Stack.pop, target_name] at hline
    by_cases hx : x ∈ vars
    · simp only [if_pos hx, Emission.code, List.map_cons, List.map_nil, List.mem_cons,
        List.not_mem_nil, or_false] at hline
      rcases hline with rfl | rfl
      · exact .load rfl hx
      · exact .plain _ rfl
    · simp only [if_neg hx] at hline
      exact emits_of_all [.release 1] rfl hline

theorem emits_printStack : ∀ line ∈ shape.printStack.lines, shape.Emits command line := by
  intro line hline
  refine emits_of_all _ ?_ hline
  simp only [List.all_append, all_isPlain_printFormat, Bool.true_and, Bool.and_true,
    List.all_flatMap, List.all_eq_true, List.all_cons, all_isPlain_printTop]
  intro item _
  split
  · rfl
  · rw [all_isPlain_printFormat]
    rfl

/-- Every line of a command is one of these. -/
theorem emits_execute (shape : Shape) (command : Command) :
    ∀ line ∈ (shape.execute command).lines, shape.Emits command line := by
  cases command with
  | push operand =>
      cases operand with
      | integer value => exact fun line => emits_of_all [.pushInt value] rfl
      | name x =>
          intro line hline
          obtain rfl := List.mem_singleton.1 hline
          exact .push x
  | declare name => exact fun line hline => absurd hline List.not_mem_nil
  | declareNothing => exact fun line hline => absurd hline List.not_mem_nil
  | declareReserved token column => exact fun line hline => absurd hline List.not_mem_nil
  | perform primitive =>
      cases primitive with
      | store => exact emits_store
      | fetch => exact emits_fetch
      | modulo => exact emits_modulo
      | printStack => exact emits_printStack
      | add | subtract | multiply | swap | nip | tuck =>
          exact emits_replaceTwo fun line => emits_of_all _ rfl
      | dup | drop | copySecond | negate | print =>
          simp only [execute, perform, dup, drop, copySecond, negate, print]
          repeat' split
          all_goals first
            | exact fun line => emits_of_all _ rfl
            | exact fun line => emits_of_all _ (all_isPlain_printTop _)
            | exact fun line => emits_of_all [.release 1] rfl
            | exact fun line hline => absurd hline List.not_mem_nil

end Shape

end Emissions

section Tables

namespace Shape

/-- A primitive gives no number to a name or a variable, and to a label only for a remainder. -/
theorem perform_keeps (shape : Shape) (primitive : Primitive) :
    (shape.perform primitive).shape.names = shape.names ∧
      (shape.perform primitive).shape.vars = shape.vars ∧
      (primitive ≠ .modulo → (shape.perform primitive).shape.labels = shape.labels) := by
  have hreplace (results more : Nat) (lines : List TextLine)
      (hmore : primitive ≠ .modulo → more = 0) :
      (shape.replaceTwo results more lines).shape.names = shape.names ∧
        (shape.replaceTwo results more lines).shape.vars = shape.vars ∧
        (primitive ≠ .modulo →
          (shape.replaceTwo results more lines).shape.labels = shape.labels) := by
    obtain ⟨_, ⟨hshape, _⟩ | ⟨hshape, _⟩⟩ := shape.replaceTwo_cases results more lines
    · rw [hshape]
      exact ⟨rfl, rfl, fun _ => rfl⟩
    · rw [hshape]
      exact ⟨rfl, rfl, fun h => by rw [hmore h, Nat.add_zero]⟩
  cases primitive with
  | modulo => exact hreplace 1 1 _ fun h => (h rfl).elim
  | add | subtract | multiply | swap | nip | tuck => exact hreplace _ 0 _ fun _ => rfl
  | store | fetch | dup | drop | copySecond | negate | print | printStack =>
      simp only [perform, store, fetch, dup, drop, copySecond, negate, print, printStack]
      repeat' split
      all_goals exact ⟨rfl, rfl, fun _ => rfl⟩

/-- A pushed name gets a number unless it has one. -/
theorem names_execute (shape : Shape) (command : Command) :
    (shape.execute command).shape.names =
      match command.pushed? with
      | some x => if x ∈ shape.names then shape.names else shape.names ++ [x]
      | none => shape.names := by
  cases command with
  | push operand =>
      cases operand with
      | integer value => rfl
      | name x =>
          simp only [execute, Emission.code, addName, Command.pushed?]
          split <;> rfl
  | perform primitive => exact (shape.perform_keeps primitive).1
  | declare x =>
      simp only [execute, Emission.nothing, declare, Command.pushed?]
      split <;> rfl
  | declareNothing => rfl
  | declareReserved token column => rfl

/-- So does a declared variable. -/
theorem vars_execute (shape : Shape) (command : Command) :
    (shape.execute command).shape.vars =
      match command.declared? with
      | some x => if x ∈ shape.vars then shape.vars else shape.vars ++ [x]
      | none => shape.vars := by
  cases command with
  | push operand =>
      cases operand with
      | integer value => rfl
      | name x =>
          simp only [execute, Emission.code, addName, Command.declared?]
          split <;> rfl
  | perform primitive => exact (shape.perform_keeps primitive).2.1
  | declare x =>
      simp only [execute, Emission.nothing, declare, Command.declared?]
      split <;> rfl
  | declareNothing => rfl
  | declareReserved token column => rfl

end Shape

/-- The distinct items of a list with one more item at its end. -/
theorem eraseDups_concat {items : List String} {x : String} :
    (items ++ [x]).eraseDups =
      if x ∈ items.eraseDups then items.eraseDups else items.eraseDups ++ [x] := by
  rw [List.eraseDups_append]
  by_cases h : x ∈ items
  · simp [h, List.removeAll]
  · simp [h, List.removeAll, List.eraseDups_cons]

/-- A table of a shape gets what a turn brings at its end, unless it has it. -/
def Shape.Collects (table : Shape → List String) (brought? : Turn → Option String) : Prop :=
  ∀ (shape : Shape) (turn : Turn), table (shape.execute turn.command).shape =
    match brought? turn with
    | some x => if x ∈ table shape then table shape else table shape ++ [x]
    | none => table shape

namespace Shape

theorem names_collects : Collects names Turn.pushed? := by
  intro shape turn
  rw [names_execute, turn.pushed?_command]

theorem vars_collects : Collects vars Turn.declared? := by
  intro shape turn
  rw [vars_execute, turn.declared?_command]

section Collects

variable {table : Shape → List String} {brought? : Turn → Option String}

/-- What turns bring is numbered in the order in which it is first brought. -/
theorem Collects.after_empty (h : Collects table brought?) (hempty : table .empty = [])
    (turns : List Turn) :
    table (Shape.empty.after turns) = (turns.filterMap brought?).eraseDups := by
  induction turns using List.reverseRecOn with
  | nil => exact hempty
  | append_singleton turns turn ih =>
      rw [after_append, after_cons, after_nil, h, List.filterMap_append, ih]
      cases hbrought : brought? turn with
      | none => simp [hbrought]
      | some x => simp [hbrought, eraseDups_concat]

/-- Numbers once given stay. -/
theorem Collects.prefix_after (h : Collects table brought?) (shape : Shape) (turns : List Turn) :
    table shape <+: table (shape.after turns) := by
  induction turns generalizing shape with
  | nil => exact List.prefix_refl _
  | cons turn rest ih =>
      refine List.IsPrefix.trans ?_ (ih (shape.execute turn.command).shape)
      rw [h]
      split
      · split
        · exact List.prefix_refl _
        · exact List.prefix_append _ _
      · exact List.prefix_refl _

end Collects

variable {shape : Shape} {turns : List Turn}

/-- The names of a source are numbered in the order in which they are first pushed. -/
theorem names_after (turns : List Turn) :
    (Shape.empty.after turns).names = (turns.filterMap Turn.pushed?).eraseDups :=
  names_collects.after_empty rfl turns

/-- The variables of a source are numbered in the order in which they are first declared. -/
theorem vars_after (turns : List Turn) :
    (Shape.empty.after turns).vars = (turns.filterMap Turn.declared?).eraseDups :=
  vars_collects.after_empty rfl turns

/-- A visit that pushes a name pushes the one with that number. -/
theorem getElem?_of_pushed {v : Visit} {x : String} (hv : v ∈ shape.visits turns)
    (hpushed : v.turn.pushed? = some x) :
    (shape.after turns).names[v.found.nameIndex x]? = some x := by
  obtain ⟨before, later, rfl, hfound⟩ := exists_of_mem_visits hv
  rw [after_append, after_cons, ← hfound]
  have hnames : (v.found.addName x).names = (v.found.execute v.turn.command).shape.names := by
    rw [names_execute, v.turn.pushed?_command, hpushed, addName]
    dsimp only
    split <;> rfl
  apply v.found.getElem?_nameIndex x
  rw [hnames]
  exact names_collects.prefix_after _ later

/-- A variable that a visit knows is the one with its number. -/
theorem getElem?_of_mem_vars {v : Visit} {x : String} (hv : v ∈ shape.visits turns)
    (hx : x ∈ v.found.vars) :
    (shape.after turns).vars[v.found.vars.idxOf x]? = some x := by
  obtain ⟨before, later, rfl, hfound⟩ := exists_of_mem_visits hv
  obtain ⟨more, hmore⟩ := vars_collects.prefix_after v.found (v.turn :: later)
  rw [after_append, ← hfound, ← hmore, List.getElem?_append_left (List.idxOf_lt_length_of_mem hx),
    List.getElem?_idxOf hx]

end Shape

end Tables

section Labels

/-- The label that a line defines or jumps to. -/
def TextLine.mark? : TextLine → Option Nat
  | .code (.skipIfEqual index) => some index
  | .label index => some index
  | _ => none

/-- Two jumps to a label, and the label. -/
def skip (index : Nat) : List TextLine :=
  [.code (.skipIfEqual index), .code (.skipIfEqual index), .label index]

/-- Whatever a command gives numbers to, each of these labels has its two jumps in front. -/
theorem Shape.marks_execute (shape : Shape) (command : Command) :
    ∃ count, (shape.execute command).shape.labels = shape.labels + count ∧
      (shape.execute command).lines.filter (fun line => line.mark?.isSome) =
        (List.range' (shape.labels + 1) count).flatMap skip := by
  by_cases hmodulo : command = .perform .modulo
  · subst hmodulo
    simp only [execute, perform, modulo]
    generalize hlines : List.map TextLine.code _ ++ _ = lines
    obtain ⟨_, ⟨hshape, hnone | hnone⟩ | ⟨hshape, hsome⟩⟩ := shape.replaceTwo_cases 1 1 lines
    · exact ⟨0, by rw [hshape]; rfl, by rw [hnone]; rfl⟩
    · exact ⟨0, by rw [hshape]; rfl, by rw [hnone]; rfl⟩
    · exact ⟨1, by rw [hshape], by rw [hsome, ← hlines]; rfl⟩
  · refine ⟨0, ?_, ?_⟩
    · cases command with
      | push operand =>
          cases operand with
          | integer value => rfl
          | name x =>
              simp only [execute, Emission.code, addName]
              split <;> rfl
      | perform primitive =>
          exact (shape.perform_keeps primitive).2.2 fun h => hmodulo (congrArg _ h)
      | declare x =>
          simp only [execute, Emission.nothing, declare]
          split <;> rfl
      | declareNothing => rfl
      | declareReserved token column => rfl
    · apply List.filter_eq_nil_iff.2
      intro line hline
      have hemits := shape.emits_execute command line hline
      cases hemits with
      | @plain _ instruction h =>
          cases instruction with
          | skipIfEqual index => cases h
          | _ => exact Bool.false_ne_true
      | push x => exact Bool.false_ne_true
      | save hitems hx => exact Bool.false_ne_true
      | load hitems hx => exact Bool.false_ne_true
      | jump => exact (hmodulo rfl).elim
      | label => exact (hmodulo rfl).elim

theorem Shape.marks_visits (shape : Shape) (turns : List Turn) :
    ∃ count, (shape.after turns).labels = shape.labels + count ∧
      ((shape.visits turns).flatMap fun v => v.emission.lines).filter
          (fun line => line.mark?.isSome) =
        (List.range' (shape.labels + 1) count).flatMap skip := by
  induction turns generalizing shape with
  | nil => exact ⟨0, rfl, rfl⟩
  | cons turn rest ih =>
      -- The labels of the later turns go on where those of the first one end.
      obtain ⟨first, hfirst, hlines⟩ := shape.marks_execute turn.command
      obtain ⟨later, hlater, hrest⟩ := ih (shape.execute turn.command).shape
      refine ⟨first + later, ?_, ?_⟩
      · rw [after_cons, hlater, hfirst, Nat.add_assoc]
      · rw [visits, List.flatMap_cons, List.filter_append, hrest, hfirst, Nat.add_right_comm,
          ← List.range'_append_1, List.flatMap_append, Nat.add_right_comm]
        exact congrArg (· ++ _) hlines

/-- In a listing each label has its two jumps in front, and there are no other jumps. -/
theorem Listing.marks_assembled {recover : Bool} {source : String} {listing : Listing}
    (h : compile recover source = .ok listing) :
    ∃ count, listing.assembled.filter (fun line => line.mark?.isSome) =
      (List.range' 1 count).flatMap skip := by
  obtain ⟨count, _, hmarks⟩ := Shape.empty.marks_visits (Turn.ofSource source)
  refine ⟨count, ?_⟩
  rw [assembled_eq_visits h]
  exact hmarks

end Labels

end Assembly

end StraightForth
