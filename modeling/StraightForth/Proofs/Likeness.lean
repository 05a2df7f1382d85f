import StraightForth.Proofs.Description
import Mathlib.Data.List.Forall2

/-!
# Programs that are alike

Two programs are alike when they differ in their names only, or in their integers only, or in
both. A likeness says which of them stand for each other: a name stands for one other name, and
an integer for itself or for any integer at all. The relations of this module spread a likeness
from tokens to lines and commands, and to operands, variables, faults and states. Taken between
a program and itself, a likeness says something about the names in the program.

## Implementation notes

Integers are either kept or free, and nothing lies between the two. This makes every operation
on integers respect every likeness, so that none of them has to be looked at.
-/

namespace StraightForth

/-- What stands for what in two programs that are alike. -/
structure Likeness where
  /-- Every integer stands for itself only. -/
  keepsValues : Prop
  /-- A name stands for another name. -/
  name : String → String → Prop
  /-- No name stands for two, and none is stood for by two. -/
  name_iff : ∀ {x x' y y' : String}, name x x' → name y y' → (x = y ↔ x' = y')

namespace Likeness

/-- Integers stand for each other. -/
def Value (l : Likeness) (n m : Int32) : Prop := l.keepsValues → n = m

variable (l : Likeness)

/-- Whatever is computed from integers, the results stand for each other as the integers do. -/
theorem value_map₂ {n n' m m' : Int32} (f : Int32 → Int32 → Int32) (hn : l.Value n n')
    (hm : l.Value m m') : l.Value (f n m) (f n' m') := by
  intro hkeeps
  rw [hn hkeeps, hm hkeeps]

theorem value_refl (n : Int32) : l.Value n n := fun _ => rfl

section Names

variable {l} {names names' : List String} {x x' : String}

/-- A name is listed exactly where the one that it stands for is listed. -/
theorem mem_iff (h : List.Forall₂ l.name names names') (hx : l.name x x') :
    x ∈ names ↔ x' ∈ names' := by
  induction h with
  | nil => exact iff_of_false List.not_mem_nil List.not_mem_nil
  | cons hy _ ih => rw [List.mem_cons, List.mem_cons, l.name_iff hx hy, ih]

theorem idxOf_eq (h : List.Forall₂ l.name names names') (hx : l.name x x') :
    names.idxOf x = names'.idxOf x' := by
  induction h with
  | nil => rfl
  | @cons y y' _ _ hy _ ih =>
      by_cases hsame : y = x
      · rw [hsame, (l.name_iff hy hx).1 hsame, List.idxOf_cons_self, List.idxOf_cons_self]
      · have hsame' : y' ≠ x' := fun h => hsame ((l.name_iff hy hx).2 h)
        rw [List.idxOf_cons_ne _ hsame, List.idxOf_cons_ne _ hsame', ih]

end Names

end Likeness

section Relations

variable (l : Likeness)

/-- Tokens of one kind that stand for each other. -/
inductive Token.Alike : Token → Token → Prop
  | word (word : Word) : Alike (.word word) (.word word)
  | literal {n m : Int32} (h : l.Value n m) : Alike (.literal n) (.literal m)
  | ident {x y : String} (h : l.name x y) : Alike (.ident x) (.ident y)

/-- Lines of the same number whose tokens stand for each other, in whatever columns. -/
structure Line.Alike (line other : Line) : Prop where
  number : line.number = other.number
  tokens : List.Forall₂ (fun token token' => Token.Alike l token.item token'.item) line.tokens
    other.tokens

/-- Operands of one kind that stand for each other. -/
inductive Operand.Alike : Operand → Operand → Prop
  | integer {n m : Int32} (h : l.Value n m) : Alike (.integer n) (.integer m)
  | name {x y : String} (h : l.name x y) : Alike (.name x) (.name y)

/-- Commands that do the same to what stands for each other. -/
inductive Command.Alike : Command → Command → Prop
  | push {operand operand' : Operand} (h : operand.Alike l operand') :
      Alike (.push operand) (.push operand')
  | perform (primitive : Primitive) : Alike (.perform primitive) (.perform primitive)
  | declare {x y : String} (h : l.name x y) : Alike (.declare x) (.declare y)
  | declareNothing : Alike .declareNothing .declareNothing
  | declareReserved {token token' : Token} (h : token.Alike l token') (column column' : Span) :
      Alike (.declareReserved token column) (.declareReserved token' column')

/-- Faults of one cause, about what stands for each other. -/
inductive Fault.Alike : Fault → Fault → Prop
  | nameMissing : Alike .nameMissing .nameMissing
  | nameReserved {token token' : Token} (h : token.Alike l token') (column column' : Span) :
      Alike (.nameReserved token column) (.nameReserved token' column')
  | underflow : Alike .underflow .underflow
  | notAName (value value' : Option Int32) : Alike (.notAName value) (.notAName value')
  | undeclared {x y : String} (h : l.name x y) : Alike (.undeclared x) (.undeclared y)
  | valueIsName {x y : String} (h : l.name x y) : Alike (.valueIsName x) (.valueIsName y)
  | operandIsName {x y : String} (h : l.name x y) : Alike (.operandIsName x) (.operandIsName y)

/-- Reports of such faults on the same line. -/
inductive Diagnostic.Alike : Diagnostic → Diagnostic → Prop
  | report {fault fault' : Fault} (h : fault.Alike l fault') (line : Nat)
      (column column' : Span) :
      Alike (fault.reportAt line column) (fault'.reportAt line column')

/-- Variables that were declared in the same order under names that stand for each other. -/
def Variables.Alike (vars other : Variables) : Prop :=
  List.Forall₂ (fun entry entry' => l.name entry.1 entry'.1 ∧ l.Value entry.2 entry'.2)
    vars.entries other.entries

/-- States that hold the same but for what stands for each other. -/
structure State.Alike (s t : State) : Prop where
  stack : List.Forall₂ (Operand.Alike l) s.stack.items t.stack.items
  vars : s.vars.Alike l t.vars

/-- Steps of the same line whose commands are alike. -/
structure Step.Alike (step other : Step) : Prop where
  line : step.line = other.line
  command : step.command.Alike l other.command

end Relations

variable {l : Likeness}

theorem Fault.Alike.kind {fault fault' : Fault} (h : fault.Alike l fault') :
    fault.kind = fault'.kind := by
  cases h <;> rfl

namespace Diagnostic.Alike

variable {report other : Diagnostic}

theorem kind (h : report.Alike l other) : report.kind = other.kind := by
  cases h with
  | report hfault line column column' =>
      rw [Fault.reportAt_eq, Fault.reportAt_eq]
      exact hfault.kind

theorem line (h : report.Alike l other) : report.line = other.line := by
  cases h with
  | report hfault line column column' => rw [Fault.reportAt_eq, Fault.reportAt_eq]

theorem isFatal (h : report.Alike l other) : report.isFatal = other.isFatal := by
  rw [Diagnostic.isFatal, Diagnostic.isFatal, h.kind]

end Diagnostic.Alike

namespace Command

/-- Declarations of tokens that are alike are alike. -/
theorem alike_declaration {target target' : Located Token}
    (h : target.item.Alike l target'.item) :
    (declaration target).Alike l (declaration target') := by
  obtain ⟨column, item⟩ := target
  obtain ⟨column', item'⟩ := target'
  cases h with
  | word word => exact .declareReserved (.word word) column column'
  | literal h => exact .declareReserved (.literal h) column column'
  | ident h => exact .declare h

/-- Which tokens make up a command is decided by their kinds, and these are the same. -/
theorem alike_ofTokens {tokens tokens' : List (Located Token)}
    (h : List.Forall₂ (fun token token' => Token.Alike l token.item token'.item) tokens
      tokens') :
    List.Forall₂ (fun command command' => Alike l command.item command'.item)
      (ofTokens tokens) (ofTokens tokens') := by
  fun_induction ofTokens tokens generalizing tokens' with
  | case1 =>
      cases h
      exact .nil
  | case2 token rest value hitem ih =>
      obtain ⟨⟨column', _⟩, rest', htoken, hrest, rfl⟩ := List.forall₂_cons_left_iff.1 h
      rw [hitem] at htoken
      cases htoken with
      | literal hvalue =>
          refine List.Forall₂.cons ?_ (ih hrest)
          exact .push (.integer hvalue)
  | case3 token rest name hitem ih =>
      obtain ⟨⟨column', _⟩, rest', htoken, hrest, rfl⟩ := List.forall₂_cons_left_iff.1 h
      rw [hitem] at htoken
      cases htoken with
      | ident hname =>
          refine List.Forall₂.cons ?_ (ih hrest)
          exact .push (.name hname)
  | case4 token rest word hitem primitive hprimitive ih =>
      obtain ⟨⟨column', _⟩, rest', htoken, hrest, rfl⟩ := List.forall₂_cons_left_iff.1 h
      rw [hitem] at htoken
      cases htoken
      rw [ofTokens.eq_def (_ :: _)]
      simp only [hprimitive]
      refine List.Forall₂.cons ?_ (ih hrest)
      exact .perform primitive
  | case5 token word hitem hprimitive =>
      obtain ⟨⟨column', _⟩, rest', htoken, hrest, rfl⟩ := List.forall₂_cons_left_iff.1 h
      rw [hitem] at htoken
      cases htoken
      cases hrest
      rw [ofTokens.eq_def (_ :: _)]
      simp only [hprimitive]
      refine List.Forall₂.cons ?_ .nil
      exact .declareNothing
  | case6 token word hitem hprimitive target rest ih =>
      obtain ⟨⟨column', _⟩, later, htoken, hlater, rfl⟩ := List.forall₂_cons_left_iff.1 h
      obtain ⟨target', rest', htarget, hrest, rfl⟩ := List.forall₂_cons_left_iff.1 hlater
      rw [hitem] at htoken
      cases htoken
      rw [ofTokens.eq_def (_ :: _)]
      simp only [hprimitive]
      refine List.Forall₂.cons ?_ (ih hrest)
      exact alike_declaration htarget

end Command

namespace Line

variable {line other : Line}

theorem Alike.isEmpty (h : line.Alike l other) : line.isEmpty = other.isEmpty := by
  rw [Line.isEmpty, Line.isEmpty, Bool.eq_iff_iff, List.isEmpty_iff_length_eq_zero,
    List.isEmpty_iff_length_eq_zero, h.tokens.length_eq]

theorem Alike.steps (h : line.Alike l other) :
    List.Forall₂ (Step.Alike l) line.steps other.steps := by
  rw [Line.steps, Line.steps, List.forall₂_map_left_iff, List.forall₂_map_right_iff]
  exact (Command.alike_ofTokens h.tokens).imp fun command command' hcommand =>
    ⟨h.number, hcommand⟩

/-- A likeness that every name of some lines has with itself makes the lines alike to
themselves. -/
theorem alike_self {lines : List Line}
    (h : ∀ line ∈ lines, ∀ token ∈ line.tokens, token.item.Alike l token.item) :
    List.Forall₂ (Alike l) lines lines :=
  List.forall₂_same.2 fun line hline => ⟨rfl, List.forall₂_same.2 (h line hline)⟩

end Line

end StraightForth
