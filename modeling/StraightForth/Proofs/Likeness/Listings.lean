import StraightForth.Proofs.Columns
import StraightForth.Proofs.Likeness

/-!
# Alike programs compile alike

What is known of a program before its run has no integers in it, and its names are known by
their numbers only. So commands that are alike are compiled to the same instructions, except
that each pushes its own integer. The main statement is that texts whose lines are alike both
compile to listings that are alike in this sense, or both fail with reports that are alike.
-/

namespace StraightForth

namespace Assembly

section Relations

variable (l : Likeness)

/-- Slots of one kind that stand for each other. -/
inductive Slot.Alike : Slot → Slot → Prop
  | integer : Alike .integer .integer
  | name {x y : String} (h : l.name x y) : Alike (.name x) (.name y)

/-- Shapes that know the same but for the names, which are numbered alike. -/
structure Shape.Alike (shape other : Shape) : Prop where
  slots : List.Forall₂ (Slot.Alike l) shape.slots.items other.slots.items
  names : List.Forall₂ l.name shape.names other.names
  vars : List.Forall₂ l.name shape.vars other.vars
  labels : shape.labels = other.labels

/-- The same line, or comments of one kind, or lines that push integers which stand for each
other. -/
inductive TextLine.Alike : TextLine → TextLine → Prop
  | code (instruction : Instruction) : Alike (.code instruction) (.code instruction)
  | pushInt {n m : Int32} (h : l.Value n m) : Alike (.code (.pushInt n)) (.code (.pushInt m))
  | label (index : Nat) : Alike (.label index) (.label index)
  | source (line other : Line) : Alike (.source line) (.source other)
  | report (report report' : Diagnostic) : Alike (.report report) (.report report')

/-- Whether the assembler reads a line. It leaves out comments. -/
def TextLine.isAssembled : TextLine → Bool
  | .code _ | .label _ => true
  | .source _ | .report _ => false

/-- The instructions and labels of a listing. -/
def Listing.assembled (listing : Listing) : List TextLine :=
  listing.text.filter TextLine.isAssembled

/-- Code that is alike for shapes that are alike, with faults that are alike or none. -/
structure Emission.Alike (emission other : Emission) : Prop where
  shape : emission.shape.Alike l other.shape
  lines : List.Forall₂ (TextLine.Alike l) emission.lines other.lines
  fault : Option.Rel (Fault.Alike l) emission.fault other.fault

end Relations

variable {l : Likeness}

namespace Slot.Alike

variable {slot other : Slot}

theorem lineFormat (h : slot.Alike l other) : slot.lineFormat = other.lineFormat := by
  cases h <;> rfl

theorem itemFormat (h : slot.Alike l other) : slot.itemFormat = other.itemFormat := by
  cases h <;> rfl

end Slot.Alike

theorem TextLine.Alike.isAssembled {line other : TextLine} (h : line.Alike l other) :
    line.isAssembled = other.isAssembled := by
  cases h <;> rfl

/-- Listings that are alike are so without their comments too. -/
theorem Listing.assembled_alike {listing other : Listing}
    (h : List.Forall₂ (TextLine.Alike l) listing.text other.text) :
    List.Forall₂ (TextLine.Alike l) listing.assembled other.assembled := by
  apply List.rel_filter _ h
  intro line line' hline
  simp only [hline.isAssembled]

/-- What lines that are alike have in common, if they are read by the assembler, is seen in both
listings. -/
theorem Listing.map_assembled_eq {β : Type} {listing other : Listing}
    (h : List.Forall₂ (TextLine.Alike l) listing.text other.text) {f : TextLine → β}
    (hf : ∀ line line' : TextLine, line.Alike l line' → line.isAssembled = true →
      f line = f line') :
    listing.assembled.map f = other.assembled.map f := by
  have hread : ∀ line ∈ listing.assembled, line.isAssembled = true := fun line hline =>
    (List.mem_filter.1 hline).2
  have hboth := (List.forall₂_and_left _ _).2 ⟨hread, assembled_alike h⟩
  exact map_eq_map_of_forall₂ hboth fun line line' hline => hf line line' hline.2 hline.1

theorem TextLine.forall₂_alike_same (instructions : List Instruction) :
    List.Forall₂ (Alike l) (instructions.map .code) (instructions.map .code) := by
  apply List.forall₂_same.2
  intro line hline
  obtain ⟨instruction, _, rfl⟩ := List.mem_map.1 hline
  exact .code instruction

namespace Emission.Alike

variable {shape other : Shape}

theorem nothing (h : shape.Alike l other) : (Emission.nothing shape).Alike l (.nothing other) :=
  ⟨h, .nil, .none⟩

theorem abandoned (h : shape.Alike l other) {fault fault' : Fault} (hfault : fault.Alike l fault') :
    (Emission.abandoned shape fault).Alike l (.abandoned other fault') :=
  ⟨h, .nil, .some hfault⟩

theorem refused (h : shape.Alike l other) (taken : Nat) {fault fault' : Fault}
    (hfault : fault.Alike l fault') :
    (Emission.refused shape taken fault).Alike l (.refused other taken fault') :=
  ⟨h, .cons (.code _) .nil, .some hfault⟩

theorem code (h : shape.Alike l other) (instructions : List Instruction) :
    (Emission.code shape instructions).Alike l (.code other instructions) :=
  ⟨h, TextLine.forall₂_alike_same instructions, .none⟩

end Emission.Alike

namespace Shape.Alike

variable {shape other : Shape}

theorem empty : Alike l .empty .empty := ⟨.nil, .nil, .nil, rfl⟩

theorem push (h : shape.Alike l other) {slot slot' : Slot} (hslot : slot.Alike l slot') :
    Alike l { shape with slots := shape.slots.push slot }
      { other with slots := other.slots.push slot' } :=
  ⟨.cons hslot h.slots, h.names, h.vars, h.labels⟩

/-- Shapes that are alike have no slots, or slots on top that are alike, and what is below these
is alike too. -/
@[elab_as_elim]
theorem top_cases {motive : (shape other : Shape) → shape.Alike l other → Prop}
    (nothing : ∀ {names names' vars vars' : List String} {labels : Nat}
      (hshape : Alike l ⟨⟨[]⟩, names, vars, labels⟩ ⟨⟨[]⟩, names', vars', labels⟩),
      motive ⟨⟨[]⟩, names, vars, labels⟩ ⟨⟨[]⟩, names', vars', labels⟩ hshape)
    (slot : ∀ {top top' : Slot} {rest rest' : List Slot} {names names' vars vars' : List String}
      {labels : Nat} (htop : top.Alike l top')
      (hbelow : Alike l ⟨⟨rest⟩, names, vars, labels⟩ ⟨⟨rest'⟩, names', vars', labels⟩),
      motive ⟨⟨top :: rest⟩, names, vars, labels⟩ ⟨⟨top' :: rest'⟩, names', vars', labels⟩
        (hbelow.push htop))
    (h : shape.Alike l other) : motive shape other h := by
  obtain ⟨⟨slots⟩, names, vars, labels⟩ := shape
  obtain ⟨⟨slots'⟩, names', vars', labels'⟩ := other
  obtain rfl : labels = labels' := h.labels
  have hslots := h.slots
  dsimp only at hslots
  cases hslots with
  | nil => exact nothing h
  | cons htop hrest => exact slot htop ⟨hrest, h.names, h.vars, rfl⟩

/-- For the commands that take two operands: there are no slots, or one, or at least two. -/
@[elab_as_elim]
theorem top_two_cases {motive : (shape other : Shape) → shape.Alike l other → Prop}
    (nothing : ∀ {names names' vars vars' : List String} {labels : Nat}
      (hshape : Alike l ⟨⟨[]⟩, names, vars, labels⟩ ⟨⟨[]⟩, names', vars', labels⟩),
      motive ⟨⟨[]⟩, names, vars, labels⟩ ⟨⟨[]⟩, names', vars', labels⟩ hshape)
    (single : ∀ {top top' : Slot} {names names' vars vars' : List String} {labels : Nat}
      (hshape : Alike l ⟨⟨[top]⟩, names, vars, labels⟩ ⟨⟨[top']⟩, names', vars', labels⟩),
      motive ⟨⟨[top]⟩, names, vars, labels⟩ ⟨⟨[top']⟩, names', vars', labels⟩ hshape)
    (slots : ∀ {top top' second second' : Slot} {rest rest' : List Slot}
      {names names' vars vars' : List String} {labels : Nat} (htop : top.Alike l top')
      (hsecond : second.Alike l second')
      (hbelow : Alike l ⟨⟨rest⟩, names, vars, labels⟩ ⟨⟨rest'⟩, names', vars', labels⟩),
      motive ⟨⟨top :: second :: rest⟩, names, vars, labels⟩
        ⟨⟨top' :: second' :: rest'⟩, names', vars', labels⟩ ((hbelow.push hsecond).push htop))
    (h : shape.Alike l other) : motive shape other h := by
  cases h using top_cases with
  | nothing hshape => exact nothing hshape
  | slot htop hbelow =>
      have hslots := hbelow.slots
      dsimp only at hslots
      cases hslots with
      | nil => exact single (hbelow.push htop)
      | cons hsecond hrest => exact slots htop hsecond ⟨hrest, hbelow.names, hbelow.vars, rfl⟩

theorem replaceTwo (h : shape.Alike l other) (results more : Nat) {lines lines' : List TextLine}
    (hlines : List.Forall₂ (TextLine.Alike l) lines lines') :
    (shape.replaceTwo results more lines).Alike l (other.replaceTwo results more lines') := by
  cases h using top_two_cases with
  | nothing hshape => exact .abandoned hshape .underflow
  | single hshape => exact .abandoned hshape .underflow
  | slots htop hsecond hshape =>
      rw [replaceTwo_eq, replaceTwo_eq]
      cases htop with
      | name hx => exact .refused hshape 2 (.operandIsName hx)
      | integer =>
          cases hsecond with
          | name hx => exact .refused hshape 2 (.operandIsName hx)
          | integer =>
              refine ⟨⟨?_, hshape.names, hshape.vars, rfl⟩, hlines, .none⟩
              rw [Stack.items_pushAll, Stack.items_pushAll, List.reverse_replicate]
              apply List.rel_append _ hshape.slots
              apply List.forall₂_same.2
              intro slot hslot
              rw [List.eq_of_mem_replicate hslot]
              exact .integer

theorem arrangeTwo (h : shape.Alike l other) (results : Nat) (instructions : List Instruction) :
    (shape.arrangeTwo results instructions).Alike l (other.arrangeTwo results instructions) :=
  h.replaceTwo results 0 (TextLine.forall₂_alike_same instructions)

theorem modulo (h : shape.Alike l other) : shape.modulo.Alike l other.modulo := by
  simp only [Shape.modulo, h.labels]
  apply h.replaceTwo 1 1
  apply List.rel_append (TextLine.forall₂_alike_same _)
  exact .cons (.label _) (.cons (.code _) .nil)

/-- Names that stand for each other are variables of the same number, or none. -/
theorem target (h : shape.Alike l other) {x x' : String} (hx : l.name x x') :
    (x ∈ shape.vars ∧ x' ∈ other.vars ∧ shape.vars.idxOf x = other.vars.idxOf x') ∨
      (x ∉ shape.vars ∧ x' ∉ other.vars) := by
  have hmem := Likeness.mem_iff h.vars hx
  by_cases hdeclared : x ∈ shape.vars
  · exact .inl ⟨hdeclared, hmem.1 hdeclared, Likeness.idxOf_eq h.vars hx⟩
  · exact .inr ⟨hdeclared, fun h => hdeclared (hmem.2 h)⟩

theorem store (h : shape.Alike l other) : shape.store.Alike l other.store := by
  cases h using top_two_cases with
  | nothing hshape => exact .abandoned hshape .underflow
  | single hshape => exact .abandoned hshape .underflow
  | slots htarget hvalue hshape =>
      simp only [Shape.store, Stack.popTwo, assignment_eq]
      cases htarget with
      | integer => exact .refused hshape 2 (.notAName none none)
      | name hx =>
          rcases hshape.target hx with ⟨hmem, hmem', hindex⟩ | ⟨hmem, hmem'⟩
          · dsimp only at hmem hmem' hindex
            cases hvalue with
            | integer =>
                simp only [if_pos hmem, if_pos hmem', hindex]
                exact .code hshape _
            | name hy =>
                simp only [if_pos hmem, if_pos hmem']
                exact .refused hshape 2 (.valueIsName hy)
          · dsimp only at hmem hmem'
            cases hvalue with
            | integer =>
                simp only [if_neg hmem, if_neg hmem']
                exact .refused hshape 2 (.undeclared hx)
            | name _ =>
                simp only [if_neg hmem, if_neg hmem']
                exact .refused hshape 2 (.undeclared hx)

theorem fetch (h : shape.Alike l other) : shape.fetch.Alike l other.fetch := by
  cases h using top_cases with
  | nothing hshape => exact .abandoned hshape .underflow
  | slot htarget hshape =>
      cases htarget with
      | integer => exact .refused hshape 1 (.notAName none none)
      | name hx =>
          simp only [Shape.fetch, Stack.pop, target_name]
          rcases hshape.target hx with ⟨hmem, hmem', hindex⟩ | ⟨hmem, hmem'⟩
          · dsimp only at hmem hmem' hindex
            simp only [if_pos hmem, if_pos hmem', hindex]
            exact .code (hshape.push .integer) _
          · dsimp only at hmem hmem'
            simp only [if_neg hmem, if_neg hmem']
            exact .refused hshape 1 (.undeclared hx)

theorem dup (h : shape.Alike l other) : shape.dup.Alike l other.dup := by
  cases h using top_cases with
  | nothing hshape => exact .nothing hshape
  | slot htop hshape => exact .code ((hshape.push htop).push htop) _

theorem drop (h : shape.Alike l other) : shape.drop.Alike l other.drop := by
  cases h using top_cases with
  | nothing hshape => exact .nothing hshape
  | slot htop hshape => exact .code hshape _

theorem copySecond (h : shape.Alike l other) : shape.copySecond.Alike l other.copySecond := by
  cases h using top_two_cases with
  | nothing hshape => exact .abandoned hshape .underflow
  | single hshape => exact .abandoned hshape .underflow
  | slots htop hsecond hshape =>
      exact .code (((hshape.push hsecond).push htop).push hsecond) _

theorem negate (h : shape.Alike l other) : shape.negate.Alike l other.negate := by
  cases h using top_cases with
  | nothing hshape => exact .nothing hshape
  | slot htop hshape =>
      cases htop with
      | integer => exact .code (hshape.push .integer) _
      | name hx => exact .refused hshape 1 (.operandIsName hx)

/-- The format is chosen by the kind of the operand. -/
theorem print (h : shape.Alike l other) : shape.print.Alike l other.print := by
  cases h using top_cases with
  | nothing hshape => exact .nothing hshape
  | slot htop hshape =>
      simp only [Shape.print, Stack.pop, htop.lineFormat]
      exact .code hshape _

/-- So are the formats of a dump. -/
theorem printStack (h : shape.Alike l other) : shape.printStack.Alike l other.printStack := by
  have hformats : shape.slots.bottomUp.map Slot.itemFormat =
      other.slots.bottomUp.map Slot.itemFormat := by
    rw [Stack.bottomUp, Stack.bottomUp, ← forall₂_iff_map_eq]
    exact (List.rel_reverse h.slots).imp fun _ _ hslot => hslot.itemFormat
  have hitems (size : Nat) (slots : List Slot) :
      (slots.zipIdx.flatMap fun item =>
        (if item.2 = 0 then [] else printFormat .dumpSeparator) ++
          .pushMemory (.below (size - 1 - item.2)) :: printTop item.1.itemFormat) =
      (slots.map Slot.itemFormat).zipIdx.flatMap fun item =>
        (if item.2 = 0 then [] else printFormat .dumpSeparator) ++
          .pushMemory (.below (size - 1 - item.2)) :: printTop item.1 := by
    rw [List.zipIdx_map, List.flatMap_map]
    rfl
  have hsize : shape.slots.size = other.slots.size := h.slots.length_eq
  simp only [Shape.printStack, hitems, hformats, hsize]
  exact .code h _

theorem perform (h : shape.Alike l other) (primitive : Primitive) :
    (shape.perform primitive).Alike l (other.perform primitive) := by
  cases primitive with
  | store => exact h.store
  | fetch => exact h.fetch
  | modulo => exact h.modulo
  | dup => exact h.dup
  | drop => exact h.drop
  | copySecond => exact h.copySecond
  | negate => exact h.negate
  | print => exact h.print
  | printStack => exact h.printStack
  | add | subtract | multiply | swap | nip | tuck => exact h.arrangeTwo _ _

/-- A list of names takes up a new one on both sides or on none. -/
theorem insert_alike {names names' : List String} {x x' : String}
    (h : List.Forall₂ l.name names names') (hx : l.name x x') :
    List.Forall₂ l.name (if x ∈ names then names else names ++ [x])
      (if x' ∈ names' then names' else names' ++ [x']) := by
  simp only [← Likeness.mem_iff h hx]
  split
  · exact h
  · exact List.rel_append h (.cons hx .nil)

theorem addName (h : shape.Alike l other) {x x' : String} (hx : l.name x x') :
    (shape.addName x).Alike l (other.addName x') := by
  have hnames := insert_alike h.names hx
  simp only [Shape.addName, ← Likeness.mem_iff h.names hx] at hnames ⊢
  split
  · exact h
  · next hnew =>
      rw [if_neg hnew, if_neg hnew] at hnames
      exact ⟨h.slots, hnames, h.vars, h.labels⟩

theorem declare (h : shape.Alike l other) {x x' : String} (hx : l.name x x') :
    (shape.declare x).Alike l (other.declare x') := by
  have hvars := insert_alike h.vars hx
  simp only [Shape.declare, ← Likeness.mem_iff h.vars hx] at hvars ⊢
  split
  · exact h
  · next hnew =>
      rw [if_neg hnew, if_neg hnew] at hvars
      exact ⟨h.slots, h.names, hvars, h.labels⟩

/-- Commands that are alike are compiled to code that is alike. -/
theorem execute (h : shape.Alike l other) {command command' : Command}
    (hcommand : command.Alike l command') :
    (shape.execute command).Alike l (other.execute command') := by
  cases hcommand with
  | push hoperand =>
      cases hoperand with
      | integer hn => exact ⟨h.push .integer, .cons (.pushInt hn) .nil, .none⟩
      | name hx =>
          have hadd := h.addName hx
          simp only [Shape.execute, nameIndex, Likeness.idxOf_eq h.names hx]
          refine .code ?_ _
          exact ⟨.cons (.name hx) h.slots, hadd.names, hadd.vars, hadd.labels⟩
  | perform primitive => exact h.perform primitive
  | declare hx => exact .nothing (h.declare hx)
  | declareNothing => exact .abandoned h .nameMissing
  | declareReserved htoken column column' =>
      exact .abandoned h (.nameReserved htoken column column')

end Shape.Alike

end Assembly

open Assembly

variable {l : Likeness}

/-- Steps that are alike are compiled alike. -/
theorem Step.Alike.resembles {step other : Step} (h : step.Alike l other) :
    step.Resembles (Shape.Alike l) (TextLine.Alike l) (Diagnostic.Alike l) other := by
  intro shape shape' hshape
  obtain ⟨hafter, hlines, hfault⟩ := hshape.execute h.command
  refine ⟨hafter, hlines, ?_⟩
  generalize (shape.execute step.command).fault = fault at hfault
  generalize (shape'.execute other.command).fault = fault' at hfault
  cases hfault with
  | none => exact .none
  | some hfault =>
      rw [h.line]
      exact .some (.report hfault other.line step.column other.column)

theorem Line.Alike.resembles {line other : Line} (h : line.Alike l other) :
    line.Resembles (Shape.Alike l) (TextLine.Alike l) (Diagnostic.Alike l) other where
  isEmpty := h.isEmpty
  source := .source line other
  steps := h.steps.imp fun _ _ hstep => hstep.resembles

/-- Texts with lines that are alike compile to listings that are alike, or fail alike. -/
theorem Assembly.both_compile_of_alike {source source' : String}
    (hlines : List.Forall₂ (Line.Alike l) (Line.ofSource source) (Line.ofSource source'))
    (recover : Bool) :
    Both (fun listing other => List.Forall₂ l.name listing.names other.names ∧
        List.Forall₂ l.name listing.vars other.vars ∧
        List.Forall₂ (TextLine.Alike l) listing.text other.text)
      (Diagnostic.Alike l) (compile recover source) (compile recover source') := by
  have hdrafts := both_drafts (fun _ _ h => h.isFatal)
    (fun report report' _ => .report report report') .empty recover
    (hlines.imp fun _ _ hline => hline.resembles)
  exact hdrafts.map fun draft draft' h => ⟨h.shape.names, h.shape.vars, h.text⟩

end StraightForth
