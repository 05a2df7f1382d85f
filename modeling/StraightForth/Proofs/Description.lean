import StraightForth.Assembly.Compile
import StraightForth.Session
import Mathlib.Data.List.Basic

/-!
# Shapes describe states

A shape describes a state when it holds the kinds of the operands, the names among them, and
the variables. The main statement is that a command keeps this relation, and that the fault
found in the shape is the fault of the command in the state, less the value of an integer that
stands where a variable is named.
-/

namespace StraightForth

open Assembly

/-- What is known of an operand before the run. -/
def Operand.slot : Operand → Slot
  | .integer _ => .integer
  | .name x => .name x

/-- The fault of an outcome. -/
def Outcome.fault? : Outcome → Option Fault
  | .abandoned fault => some fault
  | _ => none

/-- A fault as it is known before the run, when no integer has a value yet. -/
def Fault.forgetValue : Fault → Fault
  | .notAName _ => .notAName none
  | fault => fault

theorem Stack.items_pushAll {α : Type} (s : Stack α) (items : List α) :
    (s.pushAll items).items = items.reverse ++ s.items := by
  have h := congrArg List.reverse (s.bottomUp_pushAll items)
  simpa [Stack.bottomUp] using h

section Arrangement

/-- What the integers on top become, for the primitives that take two integers and nothing
else. The results are given in the order of pushing. -/
def Primitive.arrangement? : Primitive → Option (Int32 → Int32 → List Int32)
  | .add => some fun left right => [left + right]
  | .subtract => some fun left right => [left - right]
  | .multiply => some fun left right => [left * right]
  | .modulo => some fun left right => [Operand.remainder left right]
  | .swap => some fun left right => [right, left]
  | .nip => some fun _ right => [right]
  | .tuck => some fun left right => [right, left, right]
  | _ => none

/-- Replace the two integers on top. -/
def State.arrange (s : State) (results : Int32 → Int32 → List Int32) : State × Outcome :=
  s.replaceTwo fun lhs rhs => do
    let (left, right) ← Operand.integers lhs rhs
    return (results left right).map .integer

/-- An operation on two integers is an arrangement with one result. -/
theorem State.binary_lift (s : State) (op : Int32 → Int32 → Int32) :
    s.binary (Operand.lift op) = s.arrange fun left right => [op left right] := by
  simp only [State.binary, State.arrange]
  congr 1
  funext lhs rhs
  simp only [Operand.lift]
  cases Operand.integers lhs rhs <;> rfl

theorem State.perform_eq_arrange (s : State) {primitive : Primitive}
    {results : Int32 → Int32 → List Int32} (h : primitive.arrangement? = some results) :
    s.perform primitive = s.arrange results := by
  cases primitive <;> cases h
  case add => exact s.binary_lift _
  case subtract => exact s.binary_lift _
  case multiply => exact s.binary_lift _
  case modulo => exact s.binary_lift _
  case swap => rfl
  case nip => rfl
  case tuck => rfl

/-- An arrangement is decided by the two operands on top, the upper one first. -/
theorem State.arrange_eq (items : List Operand) (vars : Variables)
    (results : Int32 → Int32 → List Int32) :
    State.arrange ⟨⟨items⟩, vars⟩ results =
      match items with
      | .integer right :: .integer left :: rest =>
          (⟨(⟨rest⟩ : Stack Operand).pushAll ((results left right).map .integer), vars⟩, .done)
      | .name x :: _ :: rest => (⟨⟨rest⟩, vars⟩, .abandoned (.operandIsName x))
      | .integer _ :: .name x :: rest => (⟨⟨rest⟩, vars⟩, .abandoned (.operandIsName x))
      | _ => (⟨⟨items⟩, vars⟩, .abandoned .underflow) := by
  rcases items with _ | ⟨top, _ | ⟨second, rest⟩⟩
  · rfl
  · cases top <;> rfl
  · cases top <;> cases second <;> rfl

theorem Assembly.Shape.perform_eq_replaceTwo (shape : Shape) {primitive : Primitive}
    {results : Int32 → Int32 → List Int32} (h : primitive.arrangement? = some results) :
    ∃ count more lines, shape.perform primitive = shape.replaceTwo count more lines ∧
      ∀ left right, (results left right).length = count := by
  cases primitive <;> cases h <;> exact ⟨_, _, _, rfl, fun _ _ => rfl⟩

/-- The code of an arrangement is decided in the same way. -/
theorem Assembly.Shape.replaceTwo_eq (slots : List Slot) (names vars : List String)
    (labels results more : Nat) (lines : List TextLine) :
    Shape.replaceTwo ⟨⟨slots⟩, names, vars, labels⟩ results more lines =
      match slots with
      | .integer :: .integer :: rest =>
          ⟨⟨(⟨rest⟩ : Stack Slot).pushAll (List.replicate results .integer), names, vars,
            labels + more⟩, lines, none⟩
      | .name x :: _ :: rest =>
          .refused ⟨⟨rest⟩, names, vars, labels⟩ 2 (.operandIsName x)
      | .integer :: .name x :: rest =>
          .refused ⟨⟨rest⟩, names, vars, labels⟩ 2 (.operandIsName x)
      | _ => .abandoned ⟨⟨slots⟩, names, vars, labels⟩ .underflow := by
  rcases slots with _ | ⟨top, _ | ⟨second, rest⟩⟩
  · rfl
  · cases top <;> rfl
  · cases top <;> cases second <;> rfl

end Arrangement

namespace Variables

/-- The names of the variables in the order of their declarations. -/
def names (vars : Variables) : List String := vars.entries.map Prod.fst

theorem isDeclared_iff (vars : Variables) (name : String) :
    vars.isDeclared name = true ↔ name ∈ vars.names := by
  rw [isDeclared, value?, List.lookup_isSome_iff, names, List.mem_map]
  constructor
  · rintro ⟨entry, hentry, hname⟩
    exact ⟨entry, hentry, (beq_iff_eq.1 hname).symm⟩
  · rintro ⟨entry, hentry, hname⟩
    exact ⟨entry, hentry, beq_iff_eq.2 hname.symm⟩

/-- A new name comes last. -/
theorem names_declare (vars : Variables) (name : String) :
    (vars.declare name).names = if name ∈ vars.names then vars.names else vars.names ++ [name] := by
  simp only [declare]
  by_cases h : name ∈ vars.names
  · rw [if_pos h, if_pos ((vars.isDeclared_iff name).2 h)]
  · rw [if_neg h, if_neg fun declared => h ((vars.isDeclared_iff name).1 declared)]
    simp [names]

/-- The variables with a new value for one of them. -/
def overwrite (vars : Variables) (name : String) (value : Int32) : Variables :=
  ⟨vars.entries.map fun entry => if entry.1 = name then (name, value) else entry⟩

@[simp] theorem names_overwrite (vars : Variables) (name : String) (value : Int32) :
    (vars.overwrite name value).names = vars.names := by
  simp only [overwrite, names, List.map_map]
  apply List.map_congr_left
  intro entry _
  by_cases h : entry.1 = name
  · simp [h]
  · simp [h]

/-- An assignment looks at the target first, then for the variable, and at the value last. -/
theorem assign_eq (vars : Variables) (target value : Operand) :
    vars.assign target value =
      match target, value with
      | .integer n, _ => .error (.notAName (some n))
      | .name x, .integer n =>
          if x ∈ vars.names then .ok (vars.overwrite x n) else .error (.undeclared x)
      | .name x, .name y =>
          if x ∈ vars.names then .error (.valueIsName y) else .error (.undeclared x) := by
  cases target with
  | integer n => rfl
  | name x =>
      change (if vars.isDeclared x = true then _ else _) = _
      by_cases h : x ∈ vars.names
      · have hdeclared := (vars.isDeclared_iff x).2 h
        cases value with
        | integer n => simp only [h, hdeclared, store, overwrite, if_true]
        | name y => simp only [h, hdeclared, if_true]; rfl
      · have hdeclared : ¬ vars.isDeclared x = true :=
          fun declared => h ((vars.isDeclared_iff x).1 declared)
        cases value with
        | integer n => simp only [h, hdeclared, if_false]; rfl
        | name y => simp only [h, hdeclared, if_false]; rfl

/-- Reading looks at the target first and then for the variable. -/
theorem read_name_of_value? {vars : Variables} {name : String} {value : Int32}
    (h : vars.value? name = some value) : vars.read (.name name) = .ok value := by
  change vars.fetch name = _
  simp [fetch, h]

theorem read_name_of_notMem {vars : Variables} {name : String} (h : name ∉ vars.names) :
    vars.read (.name name) = .error (.undeclared name) := by
  have hnone : vars.value? name = none :=
    Option.not_isSome_iff_eq_none.1 fun hsome => h ((vars.isDeclared_iff name).1 hsome)
  change vars.fetch name = _
  simp [fetch, hnone]

theorem exists_value?_of_mem {vars : Variables} {name : String} (h : name ∈ vars.names) :
    ∃ value, vars.value? name = some value :=
  Option.isSome_iff_exists.1 ((vars.isDeclared_iff name).2 h)

end Variables

namespace Assembly.Shape

theorem cellIndex_eq (shape : Shape) (name : String) :
    shape.cellIndex name =
      if name ∈ shape.vars then .ok (shape.vars.idxOf name) else .error (.undeclared name) := by
  simp only [cellIndex]
  by_cases h : name ∈ shape.vars
  · obtain ⟨index, hindex⟩ := Option.isSome_iff_exists.1 (List.isSome_idxOf?.2 h)
    rw [List.idxOf_eq_getD_idxOf?, hindex, if_pos h]
    rfl
  · rw [List.idxOf?_eq_none_iff.2 h, if_neg h]

/-- Before the run an assignment looks at the same things in the same order. -/
theorem assignment_eq (shape : Shape) (target value : Slot) :
    shape.assignment target value =
      match target, value with
      | .integer, _ => .error (.notAName none)
      | .name x, .integer =>
          if x ∈ shape.vars then .ok (shape.vars.idxOf x) else .error (.undeclared x)
      | .name x, .name y =>
          if x ∈ shape.vars then .error (.valueIsName y) else .error (.undeclared x) := by
  cases target with
  | integer => rfl
  | name x =>
      change (shape.cellIndex x >>= _) = _
      rw [cellIndex_eq]
      by_cases h : x ∈ shape.vars
      · cases value with
        | integer => simp only [h, if_true]; rfl
        | name y => simp only [h, if_true]; rfl
      · cases value with
        | integer => simp only [h, if_false]; rfl
        | name y => simp only [h, if_false]; rfl

theorem target_name (shape : Shape) (name : String) :
    shape.target (.name name) =
      if name ∈ shape.vars then .ok (shape.vars.idxOf name) else .error (.undeclared name) :=
  shape.cellIndex_eq name

/-- The shape holds the kinds and names of the operands, and the names of the variables. -/
structure Describes (shape : Shape) (s : State) : Prop where
  slots : shape.slots.items = s.stack.items.map Operand.slot
  vars : shape.vars = s.vars.names

theorem empty_describes : empty.Describes .empty := ⟨rfl, rfl⟩

end Assembly.Shape

/-- The code of a command describes its effect when the shape after the code describes the
state after the command, and both are abandoned for the same fault or for none. -/
structure Assembly.Emission.Describes (emission : Emission) (effect : State × Outcome) :
    Prop where
  shape : emission.shape.Describes effect.1
  fault : emission.fault = effect.2.fault?.map Fault.forgetValue

namespace Assembly.Shape.Describes

variable {shape : Shape} {s : State}

/-- An arrangement leaves integers, whatever their values are. -/
theorem replaceTwo (h : shape.Describes s) {results : Int32 → Int32 → List Int32} {count : Nat}
    (hcount : ∀ left right, (results left right).length = count) (more : Nat)
    (lines : List TextLine) :
    (shape.replaceTwo count more lines).Describes (s.arrange results) := by
  obtain ⟨⟨items⟩, vars⟩ := s
  obtain ⟨⟨slots⟩, names, declared, labels⟩ := shape
  obtain ⟨rfl, hvars⟩ := h
  rw [State.arrange_eq, replaceTwo_eq]
  have hpush (left right : Int32) (rest : List Operand) :
      ((⟨rest.map Operand.slot⟩ : Stack Slot).pushAll (List.replicate count .integer)).items =
        ((⟨rest⟩ : Stack Operand).pushAll
          ((results left right).map .integer)).items.map Operand.slot := by
    have hslot : Operand.slot ∘ Operand.integer = fun _ => Slot.integer := rfl
    rw [Stack.items_pushAll, Stack.items_pushAll, List.map_append, List.map_reverse, List.map_map,
      hslot, List.map_const', hcount]
  rcases items with _ | ⟨top, _ | ⟨second, rest⟩⟩
  · exact ⟨⟨rfl, hvars⟩, rfl⟩
  · cases top <;> exact ⟨⟨rfl, hvars⟩, rfl⟩
  · cases top with
    | name x => exact ⟨⟨rfl, hvars⟩, rfl⟩
    | integer right =>
        cases second with
        | name x => exact ⟨⟨rfl, hvars⟩, rfl⟩
        | integer left => exact ⟨⟨hpush left right rest, hvars⟩, rfl⟩

theorem store (h : shape.Describes s) : shape.store.Describes s.store := by
  obtain ⟨⟨items⟩, vars⟩ := s
  obtain ⟨⟨slots⟩, names, declared, labels⟩ := shape
  obtain ⟨rfl, rfl⟩ := h
  rcases items with _ | ⟨target, _ | ⟨value, rest⟩⟩
  · exact ⟨⟨rfl, rfl⟩, rfl⟩
  · exact ⟨⟨rfl, rfl⟩, rfl⟩
  · simp only [Shape.store, State.store, Stack.popTwo, List.map_cons, assignment_eq,
      Variables.assign_eq]
    cases target with
    | integer n => exact ⟨⟨rfl, rfl⟩, rfl⟩
    | name x =>
        by_cases hx : x ∈ vars.names
        · cases value with
          | integer n =>
              simp only [Operand.slot, hx, if_true]
              exact ⟨⟨rfl, (vars.names_overwrite x n).symm⟩, rfl⟩
          | name y =>
              simp only [Operand.slot, hx, if_true]
              exact ⟨⟨rfl, rfl⟩, rfl⟩
        · cases value with
          | integer n =>
              simp only [Operand.slot, hx, if_false]
              exact ⟨⟨rfl, rfl⟩, rfl⟩
          | name y =>
              simp only [Operand.slot, hx, if_false]
              exact ⟨⟨rfl, rfl⟩, rfl⟩

theorem fetch (h : shape.Describes s) : shape.fetch.Describes s.fetch := by
  obtain ⟨⟨items⟩, vars⟩ := s
  obtain ⟨⟨slots⟩, names, declared, labels⟩ := shape
  obtain ⟨rfl, rfl⟩ := h
  rcases items with _ | ⟨_ | x, rest⟩
  · exact ⟨⟨rfl, rfl⟩, rfl⟩
  · exact ⟨⟨rfl, rfl⟩, rfl⟩
  · simp only [Shape.fetch, State.fetch, Stack.pop, List.map_cons, Operand.slot, target_name]
    by_cases hx : x ∈ vars.names
    · obtain ⟨value, hvalue⟩ := Variables.exists_value?_of_mem hx
      simp only [hx, if_true, Variables.read_name_of_value? hvalue]
      exact ⟨⟨rfl, rfl⟩, rfl⟩
    · simp only [hx, if_false, Variables.read_name_of_notMem hx]
      exact ⟨⟨rfl, rfl⟩, rfl⟩

theorem dup (h : shape.Describes s) : shape.dup.Describes s.dup := by
  obtain ⟨⟨items⟩, vars⟩ := s
  obtain ⟨⟨slots⟩, names, declared, labels⟩ := shape
  obtain ⟨rfl, rfl⟩ := h
  cases items <;> exact ⟨⟨rfl, rfl⟩, rfl⟩

theorem drop (h : shape.Describes s) : shape.drop.Describes s.drop := by
  obtain ⟨⟨items⟩, vars⟩ := s
  obtain ⟨⟨slots⟩, names, declared, labels⟩ := shape
  obtain ⟨rfl, rfl⟩ := h
  cases items <;> exact ⟨⟨rfl, rfl⟩, rfl⟩

theorem copySecond (h : shape.Describes s) : shape.copySecond.Describes s.copySecond := by
  obtain ⟨⟨items⟩, vars⟩ := s
  obtain ⟨⟨slots⟩, names, declared, labels⟩ := shape
  obtain ⟨rfl, rfl⟩ := h
  rcases items with _ | ⟨_, _ | _⟩ <;> exact ⟨⟨rfl, rfl⟩, rfl⟩

theorem negate (h : shape.Describes s) : shape.negate.Describes s.negate := by
  obtain ⟨⟨items⟩, vars⟩ := s
  obtain ⟨⟨slots⟩, names, declared, labels⟩ := shape
  obtain ⟨rfl, rfl⟩ := h
  rcases items with _ | ⟨_ | _, _⟩ <;> exact ⟨⟨rfl, rfl⟩, rfl⟩

theorem print (h : shape.Describes s) : shape.print.Describes s.print := by
  obtain ⟨⟨items⟩, vars⟩ := s
  obtain ⟨⟨slots⟩, names, declared, labels⟩ := shape
  obtain ⟨rfl, rfl⟩ := h
  cases items <;> exact ⟨⟨rfl, rfl⟩, rfl⟩

theorem printStack (h : shape.Describes s) : shape.printStack.Describes s.printStack :=
  ⟨h, rfl⟩

theorem perform (h : shape.Describes s) (primitive : Primitive) :
    (shape.perform primitive).Describes (s.perform primitive) := by
  cases harrangement : primitive.arrangement? with
  | some results =>
      obtain ⟨count, more, lines, heq, hcount⟩ := shape.perform_eq_replaceTwo harrangement
      rw [heq, s.perform_eq_arrange harrangement]
      exact h.replaceTwo hcount more lines
  | none =>
      cases primitive with
      | store => exact h.store
      | fetch => exact h.fetch
      | dup => exact h.dup
      | drop => exact h.drop
      | copySecond => exact h.copySecond
      | negate => exact h.negate
      | print => exact h.print
      | printStack => exact h.printStack
      | _ => cases harrangement

/-- A new name or variable is the only thing that a shape learns besides the slots. -/
theorem declare (h : shape.Describes s) (name : String) :
    (shape.declare name).Describes { s with vars := s.vars.declare name } := by
  constructor
  · simp only [Shape.declare]
    split <;> exact h.slots
  · rw [Variables.names_declare, ← h.vars]
    simp only [Shape.declare]
    split <;> rfl

/-- Every command keeps the shape and the state together. -/
theorem execute (h : shape.Describes s) (command : Command) :
    (shape.execute command).Describes (s.execute command) := by
  cases command with
  | push operand =>
      cases operand with
      | integer value => exact ⟨⟨congrArg (Slot.integer :: ·) h.slots, h.vars⟩, rfl⟩
      | name x =>
          refine ⟨⟨congrArg (Slot.name x :: ·) h.slots, ?_⟩, rfl⟩
          refine Eq.trans ?_ h.vars
          simp only [Shape.execute, Emission.code, addName]
          split <;> rfl
  | perform primitive => exact h.perform primitive
  | declare name => exact ⟨h.declare name, rfl⟩
  | declareNothing => exact ⟨h, rfl⟩
  | declareReserved token column => exact ⟨h, rfl⟩

end Assembly.Shape.Describes

section Growth

namespace Assembly

/-- A line that does something: an instruction, or one of the first labels. -/
def TextLine.IsCode (labels : Nat) : TextLine → Prop
  | .code _ => True
  | .label index => index ≤ labels
  | .source _ | .report _ => False

namespace Shape

/-- Numbers once given to labels and names stay, and the code of a command has no comments. -/
structure Extends (shape : Shape) (emission : Emission) : Prop where
  labels : shape.labels ≤ emission.shape.labels
  names : shape.names <+: emission.shape.names
  lines : ∀ line ∈ emission.lines, line.IsCode emission.shape.labels

/-- Plain instructions that push no new name. -/
theorem extends_of_code {shape : Shape} {emission : Emission} {instructions : List Instruction}
    (hlines : emission.lines = instructions.map .code)
    (hlabels : emission.shape.labels = shape.labels)
    (hnames : emission.shape.names = shape.names) : shape.Extends emission where
  labels := Nat.le_of_eq hlabels.symm
  names := hnames ▸ List.prefix_refl _
  lines line hline := by
    rw [hlines] at hline
    obtain ⟨instruction, _, rfl⟩ := List.mem_map.1 hline
    exact trivial

theorem extends_nothing (shape : Shape) : shape.Extends (.nothing shape) :=
  extends_of_code (List.map_nil).symm rfl rfl

theorem extends_abandoned (shape : Shape) (fault : Fault) :
    shape.Extends (.abandoned shape fault) :=
  extends_of_code (List.map_nil).symm rfl rfl

theorem extends_refused (shape : Shape) (slots : Stack Slot) (taken : Nat) (fault : Fault) :
    shape.Extends (.refused { shape with slots } taken fault) :=
  extends_of_code (List.map_singleton).symm rfl rfl

theorem extends_replaceTwo (shape : Shape) (results more : Nat) {lines : List TextLine}
    (hlines : ∀ line ∈ lines, line.IsCode (shape.labels + more)) :
    shape.Extends (shape.replaceTwo results more lines) := by
  simp only [replaceTwo]
  split
  · exact shape.extends_abandoned _
  · split
    · exact shape.extends_refused _ _ _
    · exact ⟨Nat.le_add_right _ _, List.prefix_refl _, hlines⟩

theorem extends_perform (shape : Shape) (primitive : Primitive) :
    shape.Extends (shape.perform primitive) := by
  cases primitive with
  | modulo =>
      apply shape.extends_replaceTwo 1 1
      intro line hline
      rcases List.mem_append.1 hline with hline | hline
      · obtain ⟨instruction, _, rfl⟩ := List.mem_map.1 hline
        exact trivial
      · rcases List.mem_pair.1 hline with rfl | rfl
        · exact Nat.le_refl _
        · exact trivial
  | add | subtract | multiply | swap | nip | tuck =>
      apply shape.extends_replaceTwo _ 0
      intro line hline
      obtain ⟨instruction, _, rfl⟩ := List.mem_map.1 hline
      exact trivial
  | store | fetch | dup | drop | copySecond | negate | print | printStack =>
      simp only [perform, store, fetch, dup, drop, copySecond, negate, print, printStack]
      repeat' split
      all_goals first
        | exact extends_of_code rfl rfl rfl
        | exact shape.extends_nothing
        | exact shape.extends_abandoned _
        | exact shape.extends_refused _ _ _

theorem extends_execute (shape : Shape) (command : Command) :
    shape.Extends (shape.execute command) := by
  cases command with
  | push operand =>
      cases operand with
      | integer value => exact extends_of_code rfl rfl rfl
      | name x =>
          have hadd : (shape.addName x).labels = shape.labels ∧
              shape.names <+: (shape.addName x).names := by
            simp only [addName]
            split
            · exact ⟨rfl, List.prefix_refl _⟩
            · exact ⟨rfl, List.prefix_append _ _⟩
          refine ⟨Nat.le_of_eq hadd.1.symm, hadd.2, ?_⟩
          intro line hline
          obtain rfl := List.mem_singleton.1 hline
          exact trivial
  | perform primitive => exact shape.extends_perform primitive
  | declare name =>
      have hdeclare : (shape.declare name).labels = shape.labels ∧
          (shape.declare name).names = shape.names := by
        simp only [declare]
        split <;> exact ⟨rfl, rfl⟩
      exact extends_of_code (List.map_nil).symm hdeclare.1 hdeclare.2
  | declareNothing => exact shape.extends_abandoned _
  | declareReserved token column => exact shape.extends_abandoned _

end Shape

end Assembly

end Growth

end StraightForth
