import StraightForth.Fault

/-!
# Stacks

A stack has no upper bound. Taking more from it than it holds is a fault that leaves it whole.
-/

namespace StraightForth

/-- A stack, its top item first. -/
structure Stack (α : Type) where
  items : List α
deriving DecidableEq

namespace Stack

variable {α : Type}

/-- The stack without items. -/
def empty : Stack α := ⟨[]⟩

/-- The number of items. -/
def size (s : Stack α) : Nat := s.items.length

/-- Whether there are no items. -/
def isEmpty (s : Stack α) : Bool := s.items.isEmpty

/-- The items from the bottom to the top. -/
def bottomUp (s : Stack α) : List α := s.items.reverse

/-- Put an item on top. -/
def push (s : Stack α) (item : α) : Stack α := ⟨item :: s.items⟩

/-- Put items on top one after the other, so that the last one ends up as the top. -/
def pushAll (s : Stack α) (items : List α) : Stack α := items.foldl push s

/-- The item at a depth, which is zero for the top. -/
def peek? (s : Stack α) (depth : Nat) : Option α := s.items[depth]?

/-- Demand a number of items. -/
def require (s : Stack α) (depth : Nat) : Except Fault Unit :=
  if s.size < depth then .error .underflow else .ok ()

/-- Take the top item off. -/
def pop (s : Stack α) : Except Fault (α × Stack α) :=
  match s.items with
  | [] => .error .underflow
  | top :: rest => .ok (top, ⟨rest⟩)

/-- Take two items off, and give them in the order in which they were pushed. -/
def popTwo (s : Stack α) : Except Fault ((α × α) × Stack α) :=
  match s.items with
  | top :: second :: rest => .ok ((second, top), ⟨rest⟩)
  | _ => .error .underflow

@[simp] theorem bottomUp_empty : (empty : Stack α).bottomUp = [] := rfl

@[simp] theorem bottomUp_push (s : Stack α) (item : α) :
    (s.push item).bottomUp = s.bottomUp ++ [item] := by
  simp [push, bottomUp]

@[simp] theorem bottomUp_pushAll (s : Stack α) (items : List α) :
    (s.pushAll items).bottomUp = s.bottomUp ++ items := by
  induction items generalizing s with
  | nil => simp [pushAll]
  | cons item items ih =>
      have h := ih (s.push item)
      simp only [pushAll, List.foldl_cons, bottomUp_push, List.append_assoc,
        List.singleton_append] at h ⊢
      exact h

/-- A list in brackets, which is how the items of a stack are shown. -/
def bracket (items : List String) : String :=
  "[" ++ ", ".intercalate items ++ "]"

/-- The items from the bottom to the top, written out. -/
def text (render : α → String) (s : Stack α) : String :=
  bracket (s.bottomUp.map render)

end Stack

end StraightForth
