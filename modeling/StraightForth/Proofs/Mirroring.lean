import StraightForth.Proofs.Integers
import StraightForth.Proofs.Printing
import StraightForth.Proofs.Steps

/-!
# The machine mirrors the interpreter

A machine mirrors a state when its cells hold the operands in their order and its variables
have their values. The code of each command, reached with a shape that describes the state,
leads to a machine that mirrors the state after the command, and writes what the command
prints. This includes the commands that are abandoned.
-/

namespace StraightForth

open Assembly

/-- What a command prints. -/
def Outcome.text : Outcome → String
  | .printed text => text
  | _ => ""

/-- What an event prints. -/
def Event.text : Event → String
  | .print text => text
  | .diagnostic _ => ""

/-- All that a session has printed. -/
def Session.printed (session : Session) : String :=
  String.join (session.events.toList.map Event.text)

/-- A step that does not end the run leaves the state of its effect, and queues what the effect
prints. -/
theorem Session.take_eq_none {session after : Session} {step : Step}
    (h : session.take step = (after, none)) :
    after.state = (session.state.execute step.command).1 ∧
      after.printed = session.printed ++ (session.state.execute step.command).2.text := by
  have hstate := session.state_take step
  have hevents := session.events_take step
  rw [h] at hstate hevents
  refine ⟨hstate, ?_⟩
  rw [printed, ← List.append_nil after.events.toList]
  rw [show after.events.toList ++ [] = _ from hevents, List.map_append, String.join_append]
  cases (session.state.execute step.command).2 <;> rfl

/-- What is in a list once has one place. -/
theorem idxOf_of_getElem? {α : Type} [DecidableEq α] {items : List α} (hdistinct : items.Nodup)
    {index : Nat} {item : α} (h : items[index]? = some item) : items.idxOf item = index := by
  obtain ⟨hindex, rfl⟩ := List.getElem?_eq_some_iff.1 h
  exact hdistinct.idxOf_getElem index hindex

namespace Variables

/-- The value of a variable stands at its place. -/
theorem getElem?_idxOf {vars : Variables} {name : String} {value : Int32}
    (h : vars.value? name = some value) :
    vars.entries[vars.names.idxOf name]? = some (name, value) := by
  obtain ⟨entries⟩ := vars
  simp only [value?, names] at h ⊢
  induction entries with
  | nil => cases h
  | cons entry entries ih =>
      obtain ⟨key, first⟩ := entry
      rw [List.lookup_cons] at h
      by_cases hkey : name = key
      · subst hkey
        rw [beq_self_eq_true] at h
        obtain rfl := Option.some.inj h
        simp
      · rw [beq_false_of_ne hkey] at h
        rw [List.map_cons, List.idxOf_cons_ne _ (Ne.symm hkey)]
        exact ih h

/-- Overwriting changes one place only. -/
theorem getElem?_overwrite {vars : Variables} (hdistinct : vars.names.Nodup) {name : String}
    (h : name ∈ vars.names) (value : Int32) (index : Nat) :
    (vars.overwrite name value).entries[index]? =
      if index = vars.names.idxOf name then some (name, value) else vars.entries[index]? := by
  have hnames : vars.names[index]? = vars.entries[index]?.map Prod.fst := List.getElem?_map
  rw [overwrite, List.getElem?_map]
  cases hentry : vars.entries[index]? with
  | none =>
      rw [hentry] at hnames
      have hne : index ≠ vars.names.idxOf name := by
        rintro rfl
        rw [List.getElem?_idxOf h] at hnames
        cases hnames
      rw [if_neg hne]
      rfl
  | some entry =>
      rw [hentry] at hnames
      have hself : vars.names.idxOf entry.1 = index := idxOf_of_getElem? hdistinct hnames
      have hplace : entry.1 = name ↔ index = vars.names.idxOf name := by
        constructor
        · rintro rfl
          exact hself.symm
        · intro hequal
          exact (List.idxOf_inj (List.mem_of_getElem? hnames)).1 (hself.trans hequal)
      simp only [Option.map_some, hplace]
      split <;> rfl

end Variables

namespace Assembly

/-- The machine holds the state. Cells that belong to no variable are zero still. -/
structure Environment.Mirrors (env : Environment) (names : List String) (s : State)
    (m : Machine) : Prop where
  stack : List.Forall₂ (env.Holds names) s.stack.items m.stack
  cells : ∀ index, m.cells index = (s.vars.entries[index]?.elim 0 fun entry => entry.2.toBitVec)
  distinct : s.vars.names.Nodup
  saved : m.saved = m.entry

/-- The lines lead to a machine that mirrors the state after a command, and write what the
command prints. -/
def Environment.Follows (env : Environment) (names : List String) (labels : Nat)
    (lines : List TextLine) (m : Machine) (effect : State × Outcome) : Prop :=
  ∃ result, env.Executes labels lines m result ∧ env.Mirrors names effect.1 result ∧
    result.output = m.output ++ Text.utf8 effect.2.text

/-- The number of a name stays the same from its first push on. -/
theorem Shape.getElem?_nameIndex (shape : Shape) (x : String) {names : List String}
    (hnames : (shape.addName x).names <+: names) : names[shape.nameIndex x]? = some x := by
  have hmem : x ∈ (shape.addName x).names ∧
      shape.nameIndex x = (shape.addName x).names.idxOf x := by
    simp only [Shape.addName, Shape.nameIndex]
    split
    · next hx => exact ⟨hx, rfl⟩
    · next hx =>
        refine ⟨List.mem_append_right _ (List.mem_singleton.2 rfl), ?_⟩
        rw [List.idxOf_eq_length hx, List.idxOf_append_of_notMem hx, List.idxOf_cons_self,
          Nat.add_zero]
  obtain ⟨later, hlater⟩ := hnames
  have hplace := List.idxOf_lt_length_of_mem hmem.1
  rw [hmem.2, ← hlater, List.getElem?_append_left hplace, List.getElem?_idxOf hmem.1]

namespace Environment.Mirrors

variable {env : Environment} {names : List String} {shape : Shape} {s : State} {m : Machine}

/-- Code that leaves the variables alone is right when it leaves the right cells. -/
theorem follows_of_continues (h : env.Mirrors names s m) {labels : Nat} {lines : List TextLine}
    {effect : State × Outcome} {stack : List Dword}
    (hlines : ∃ result, env.Executes labels lines m result ∧
      m.Continues result stack (Text.utf8 effect.2.text))
    (hstack : List.Forall₂ (env.Holds names) effect.1.stack.items stack)
    (hvars : effect.1.vars = s.vars) : env.Follows names labels lines m effect := by
  obtain ⟨result, hexecutes, hcontinues⟩ := hlines
  refine ⟨result, hexecutes, ⟨?_, ?_, ?_, ?_⟩, hcontinues.output⟩
  · rw [hcontinues.stack]
    exact hstack
  · rw [hcontinues.cells, hvars]
    exact h.cells
  · rw [hvars]
    exact h.distinct
  · rw [hcontinues.saved, hcontinues.entry]
    exact h.saved

/-- A command without effect has no code. -/
theorem follows_nothing (h : env.Mirrors names s m) (labels : Nat) {outcome : Outcome}
    (htext : outcome.text = "") : env.Follows names labels [] m (s, outcome) := by
  refine h.follows_of_continues ?_ h.stack rfl
  rw [htext]
  exact (carries_nil m).executes labels

/-- A command that refuses its operands takes them off. -/
theorem follows_refused (h : env.Mirrors names s m) (labels : Nat) {taken : Nat}
    {rest : List Operand} {vars : Variables} (fault : Fault)
    (hrest : s.stack.items.drop taken = rest) (htaken : taken ≤ s.stack.items.length)
    (hvars : vars = s.vars) :
    env.Follows names labels [.code (.release taken)] m (⟨⟨rest⟩, vars⟩, .abandoned fault) := by
  have hlength : taken ≤ m.stack.length := h.stack.length_eq ▸ htaken
  refine h.follows_of_continues ((carries_release hlength).executes labels) ?_ hvars
  rw [← hrest]
  exact List.forall₂_drop taken h.stack

theorem holds_results (results : List Int32) :
    List.Forall₂ (env.Holds names) (results.map .integer).reverse
      (results.reverse.map Int32.toBitVec) := by
  rw [← List.map_reverse, List.forall₂_map_left_iff, List.forall₂_map_right_iff]
  exact List.forall₂_same.2 fun _ _ => rfl

theorem arrange (h : env.Mirrors names s m) (hshape : shape.Describes s) {primitive : Primitive}
    {results : Int32 → Int32 → List Int32} (hresults : primitive.arrangement? = some results) :
    env.Follows names shape.labels (shape.perform primitive).lines m (s.perform primitive) := by
  obtain ⟨count, more, lines, heq, _⟩ := shape.perform_eq_replaceTwo hresults
  rw [s.perform_eq_arrange hresults]
  obtain ⟨⟨items⟩, vars⟩ := s
  obtain ⟨⟨slots⟩, shapeNames, declared, labels⟩ := shape
  obtain ⟨rfl, rfl⟩ := hshape
  rw [State.arrange_eq]
  rcases items with _ | ⟨top, _ | ⟨second, rest⟩⟩
  · rw [heq, Shape.replaceTwo_eq]
    exact h.follows_nothing labels rfl
  · rw [heq, Shape.replaceTwo_eq]
    cases top <;> exact h.follows_nothing labels rfl
  · cases top with
    | name x =>
        rw [heq, Shape.replaceTwo_eq]
        exact h.follows_refused labels _ rfl (Nat.le_add_left 2 _) rfl
    | integer right =>
        cases second with
        | name x =>
            rw [heq, Shape.replaceTwo_eq]
            exact h.follows_refused labels _ rfl (Nat.le_add_left 2 _) rfl
        | integer left =>
            obtain ⟨_, _, rfl, hbelow, hstack⟩ := List.forall₂_cons_left_iff.1 h.stack
            obtain ⟨_, cells, rfl, hcells, rfl⟩ := List.forall₂_cons_left_iff.1 hbelow
            refine h.follows_of_continues (executes_arrangement hresults rfl hstack) ?_ rfl
            rw [Stack.items_pushAll]
            exact List.rel_append (holds_results _) hcells

theorem dup (h : env.Mirrors names s m) (hshape : shape.Describes s) :
    env.Follows names shape.labels shape.dup.lines m s.dup := by
  obtain ⟨⟨items⟩, vars⟩ := s
  obtain ⟨⟨slots⟩, shapeNames, declared, labels⟩ := shape
  obtain ⟨rfl, rfl⟩ := hshape
  cases items with
  | nil => exact h.follows_nothing labels rfl
  | cons top rest =>
      obtain ⟨cell, cells, hcell, hcells, hstack⟩ := List.forall₂_cons_left_iff.1 h.stack
      have hcode : env.Carries [.pushMemory .top] m (cell :: cell :: cells) [] :=
        carries_of_stack hstack fun _ _ _ _ _ _ => ⟨_, _, rfl⟩
      exact h.follows_of_continues (hcode.executes labels) (.cons hcell (.cons hcell hcells)) rfl

theorem drop (h : env.Mirrors names s m) (hshape : shape.Describes s) :
    env.Follows names shape.labels shape.drop.lines m s.drop := by
  obtain ⟨⟨items⟩, vars⟩ := s
  obtain ⟨⟨slots⟩, shapeNames, declared, labels⟩ := shape
  obtain ⟨rfl, rfl⟩ := hshape
  cases items with
  | nil => exact h.follows_nothing labels rfl
  | cons top rest =>
      obtain ⟨cell, cells, _, hcells, hstack⟩ := List.forall₂_cons_left_iff.1 h.stack
      have hcode : env.Carries [.release 1] m cells [] := by
        have hrelease : env.Carries [.release 1] m (m.stack.drop 1) [] :=
          carries_release (by simp [hstack])
        rwa [hstack] at hrelease
      exact h.follows_of_continues (hcode.executes labels) hcells rfl

theorem copySecond (h : env.Mirrors names s m) (hshape : shape.Describes s) :
    env.Follows names shape.labels shape.copySecond.lines m s.copySecond := by
  obtain ⟨⟨items⟩, vars⟩ := s
  obtain ⟨⟨slots⟩, shapeNames, declared, labels⟩ := shape
  obtain ⟨rfl, rfl⟩ := hshape
  rcases items with _ | ⟨top, _ | ⟨second, rest⟩⟩
  · exact h.follows_nothing labels rfl
  · exact h.follows_nothing labels rfl
  · obtain ⟨upper, _, hupper, hbelow, hstack⟩ := List.forall₂_cons_left_iff.1 h.stack
    obtain ⟨lower, cells, hlower, hcells, rfl⟩ := List.forall₂_cons_left_iff.1 hbelow
    have hcode : env.Carries [.pushMemory (.below 1)] m (lower :: upper :: lower :: cells) [] :=
      carries_of_stack hstack fun _ _ _ _ _ _ => ⟨_, _, rfl⟩
    exact h.follows_of_continues (hcode.executes labels)
      (.cons hlower (.cons hupper (.cons hlower hcells))) rfl

theorem negate (h : env.Mirrors names s m) (hshape : shape.Describes s) :
    env.Follows names shape.labels shape.negate.lines m s.negate := by
  obtain ⟨⟨items⟩, vars⟩ := s
  obtain ⟨⟨slots⟩, shapeNames, declared, labels⟩ := shape
  obtain ⟨rfl, rfl⟩ := hshape
  rcases items with _ | ⟨value | x, rest⟩
  · exact h.follows_nothing labels rfl
  · obtain ⟨_, cells, rfl, hcells, hstack⟩ := List.forall₂_cons_left_iff.1 h.stack
    have hcode : env.Carries [.negate .top] m ((-value).toBitVec :: cells) [] :=
      carries_of_stack hstack fun _ _ _ _ _ _ => ⟨_, _, rfl⟩
    exact h.follows_of_continues (hcode.executes labels) (.cons rfl hcells) rfl
  · exact h.follows_refused labels _ rfl (Nat.le_add_left 1 _) rfl

theorem print (h : env.Mirrors names s m) (hshape : shape.Describes s)
    (hformats : env.HasFormats) :
    env.Follows names shape.labels shape.print.lines m s.print := by
  obtain ⟨⟨items⟩, vars⟩ := s
  obtain ⟨⟨slots⟩, shapeNames, declared, labels⟩ := shape
  obtain ⟨rfl, rfl⟩ := hshape
  cases items with
  | nil => exact h.follows_nothing labels rfl
  | cons top rest =>
      obtain ⟨cell, cells, hcell, hcells, hstack⟩ := List.forall₂_cons_left_iff.1 h.stack
      have hcode := carries_printTop hformats hstack (hcell.expand_lineFormat cells)
      exact h.follows_of_continues (hcode.executes labels) hcells rfl

theorem printStack (h : env.Mirrors names s m) (hshape : shape.Describes s)
    (hformats : env.HasFormats) :
    env.Follows names shape.labels shape.printStack.lines m s.printStack :=
  h.follows_of_continues (executes_printStack hformats hshape.slots h.stack) h.stack rfl

theorem fetch (h : env.Mirrors names s m) (hshape : shape.Describes s) :
    env.Follows names shape.labels shape.fetch.lines m s.fetch := by
  obtain ⟨⟨items⟩, vars⟩ := s
  obtain ⟨⟨slots⟩, shapeNames, declared, labels⟩ := shape
  obtain ⟨rfl, rfl⟩ := hshape
  rcases items with _ | ⟨value | x, rest⟩
  · exact h.follows_nothing labels rfl
  · exact h.follows_refused labels _ rfl (Nat.le_add_left 1 _) rfl
  · simp only [Shape.fetch, State.fetch, Stack.pop, List.map_cons, Operand.slot, Shape.target_name]
    by_cases hx : x ∈ vars.names
    · obtain ⟨value, hvalue⟩ := Variables.exists_value?_of_mem hx
      simp only [hx, if_true, Variables.read_name_of_value? hvalue]
      obtain ⟨cell, cells, _, hcells, hstack⟩ := List.forall₂_cons_left_iff.1 h.stack
      have hcell : m.cells (vars.names.idxOf x) = value.toBitVec := by
        rw [h.cells, Variables.getElem?_idxOf hvalue]
        rfl
      have hcode : env.Carries [.load .eax (.symbol (.cell (vars.names.idxOf x))), .save .top .eax]
          m (value.toBitVec :: cells) [] := by
        rw [← hcell]
        obtain ⟨registers, entry, stack, values, saved, equal, output⟩ := m
        obtain rfl : stack = _ := hstack
        exact ⟨_, rfl, Machine.continues_silent _ _ _ _⟩
      exact h.follows_of_continues (hcode.executes labels) (.cons rfl hcells) rfl
    · simp only [hx, if_false, Variables.read_name_of_notMem hx]
      exact h.follows_refused labels _ rfl (Nat.le_add_left 1 _) rfl

/-- The code of an assignment puts the value below the name into the cell of the variable. -/
theorem follows_assignment {x : String} {n : Int32} {rest : List Operand} {vars : Variables}
    (h : env.Mirrors names ⟨⟨.name x :: .integer n :: rest⟩, vars⟩ m) (labels : Nat)
    (hx : x ∈ vars.names) :
    env.Follows names labels
      ([.release 1, .pop .eax, .save (.symbol (.cell (vars.names.idxOf x))) .eax].map .code) m
      (⟨⟨rest⟩, vars.overwrite x n⟩, .done) := by
  obtain ⟨_, _, _, hbelow, hstack⟩ := List.forall₂_cons_left_iff.1 h.stack
  obtain ⟨_, cells, rfl, hcells, rfl⟩ := List.forall₂_cons_left_iff.1 hbelow
  have hcode : ∃ result, env.applyAll m [.release 1, .pop .eax,
        .save (.symbol (.cell (vars.names.idxOf x))) .eax] = .ok result ∧
      result.stack = cells ∧ result.output = m.output ∧
      result.cells = Function.update m.cells (vars.names.idxOf x) n.toBitVec ∧
      result.saved = m.saved ∧ result.entry = m.entry := by
    obtain ⟨registers, entry, stack, values, saved, equal, output⟩ := m
    obtain rfl : stack = _ := hstack
    exact ⟨_, rfl, rfl, rfl, rfl, rfl, rfl⟩
  obtain ⟨result, hresult, hstack, houtput, hvalues, hsaved, hentry⟩ := hcode
  refine ⟨result, executes_code labels hresult, ⟨hstack ▸ hcells, ?_, ?_, ?_⟩,
    houtput.trans (List.append_nil _).symm⟩
  · intro index
    rw [hvalues, Variables.getElem?_overwrite h.distinct hx, Function.update_apply]
    split
    · rfl
    · exact h.cells index
  · rw [Variables.names_overwrite]
    exact h.distinct
  · rw [hsaved, hentry]
    exact h.saved

theorem store (h : env.Mirrors names s m) (hshape : shape.Describes s) :
    env.Follows names shape.labels shape.store.lines m s.store := by
  obtain ⟨⟨items⟩, vars⟩ := s
  obtain ⟨⟨slots⟩, shapeNames, declared, labels⟩ := shape
  obtain ⟨rfl, rfl⟩ := hshape
  rcases items with _ | ⟨target, _ | ⟨value, rest⟩⟩
  · exact h.follows_nothing labels rfl
  · exact h.follows_nothing labels rfl
  have hrefused (fault : Fault) :
      env.Follows names labels [.code (.release 2)] m (⟨⟨rest⟩, vars⟩, .abandoned fault) :=
    h.follows_refused labels fault rfl (Nat.le_add_left 2 _) rfl
  simp only [Shape.store, State.store, Stack.popTwo, List.map_cons, Shape.assignment_eq,
    Variables.assign_eq]
  cases target with
  | integer n => exact hrefused _
  | name x =>
      by_cases hx : x ∈ vars.names
      · cases value with
        | integer n =>
            simp only [Operand.slot, hx, if_true]
            exact h.follows_assignment labels hx
        | name y =>
            simp only [Operand.slot, hx, if_true]
            exact hrefused _
      · cases value with
        | integer n =>
            simp only [Operand.slot, hx, if_false]
            exact hrefused _
        | name y =>
            simp only [Operand.slot, hx, if_false]
            exact hrefused _

theorem perform (h : env.Mirrors names s m) (hshape : shape.Describes s)
    (hformats : env.HasFormats) (primitive : Primitive) :
    env.Follows names shape.labels (shape.perform primitive).lines m (s.perform primitive) := by
  cases harrangement : primitive.arrangement? with
  | some results => exact h.arrange hshape harrangement
  | none =>
      cases primitive with
      | store => exact h.store hshape
      | fetch => exact h.fetch hshape
      | dup => exact h.dup hshape
      | drop => exact h.drop hshape
      | copySecond => exact h.copySecond hshape
      | negate => exact h.negate hshape
      | print => exact h.print hshape hformats
      | printStack => exact h.printStack hshape hformats
      | _ => cases harrangement

/-- A new variable has a cell that was not used before. -/
theorem declare (h : env.Mirrors names s m) (labels : Nat) (name : String) :
    env.Follows names labels [] m ({ s with vars := s.vars.declare name }, .done) := by
  refine ⟨m, executes_nil labels m, ⟨h.stack, ?_, ?_, h.saved⟩,
    (List.append_nil m.output).symm⟩
  · intro index
    rw [h.cells index]
    simp only [Variables.declare]
    split
    · rfl
    · change _ = Option.elim (s.vars.entries ++ [(name, 0)])[index]? _ _
      rw [List.getElem?_append]
      split
      · rfl
      · next hlength =>
          rw [List.getElem?_eq_none (Nat.le_of_not_lt hlength), List.getElem?_singleton]
          split <;> rfl
  · rw [Variables.names_declare]
    split
    · exact h.distinct
    · next hname =>
        refine List.nodup_append.2 ⟨h.distinct, List.pairwise_singleton _ name, ?_⟩
        rintro other hmem _ hother rfl
        exact hname (List.mem_singleton.1 hother ▸ hmem)

theorem push (h : env.Mirrors names s m) (labels : Nat) {instruction : Instruction}
    {operand : Operand} {cell : Dword} (happly : env.apply m instruction = .ok (m.push cell))
    (hholds : env.Holds names operand cell) :
    env.Follows names labels [.code instruction] m
      ({ s with stack := s.stack.push operand }, .done) := by
  have hcode : env.Carries [instruction] m (cell :: m.stack) [] :=
    Carries.push happly (carries_nil (m.push cell))
  exact h.follows_of_continues (hcode.executes labels) (.cons hholds h.stack) rfl

/-- The code of every command does what the command does. -/
theorem execute (h : env.Mirrors names s m) (hshape : shape.Describes s)
    (hformats : env.HasFormats) (hstrings : env.HasNames names) (command : Command)
    (hnames : (shape.execute command).shape.names <+: names)
    (hzero : ∀ x, command = .push (.name x) → '\x00' ∉ x.toList) :
    env.Follows names shape.labels (shape.execute command).lines m (s.execute command) := by
  cases command with
  | push operand =>
      cases operand with
      | integer value => exact h.push shape.labels rfl rfl
      | name x =>
          have hindex := shape.getElem?_nameIndex x hnames
          refine h.push shape.labels rfl ⟨?_, shape.nameIndex x, hindex, rfl⟩
          exact hstrings (shape.nameIndex x) x hindex (hzero x rfl)
  | perform primitive => exact h.perform hshape hformats primitive
  | declare name => exact h.declare shape.labels name
  | declareNothing => exact h.follows_nothing shape.labels rfl
  | declareReserved token column => exact h.follows_nothing shape.labels rfl

end Environment.Mirrors

end Assembly

end StraightForth
