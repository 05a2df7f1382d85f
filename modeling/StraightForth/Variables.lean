import StraightForth.Fault

/-!
# Variables

A variable exists from its declaration on and holds an integer, which is zero at first. A name
that was not declared is a fault and never a zero.
-/

namespace StraightForth

/-- The variables with their values, in the order of their declarations. -/
structure Variables where
  entries : List (String × Int32)
deriving DecidableEq

namespace Variables

/-- No variables. -/
def empty : Variables := ⟨[]⟩

/-- The value of a variable, if there is one of that name. -/
def value? (vars : Variables) (name : String) : Option Int32 :=
  vars.entries.lookup name

/-- Whether there is a variable of that name. -/
def isDeclared (vars : Variables) (name : String) : Bool :=
  (vars.value? name).isSome

/-- Add a variable. One that exists keeps its value. -/
def declare (vars : Variables) (name : String) : Variables :=
  if vars.isDeclared name then vars else ⟨vars.entries ++ [(name, 0)]⟩

/-- Read a variable. -/
def fetch (vars : Variables) (name : String) : Except Fault Int32 :=
  match vars.value? name with
  | some value => .ok value
  | none => .error (.undeclared name)

/-- Give a variable a new value. -/
def store (vars : Variables) (name : String) (value : Int32) : Except Fault Variables :=
  if vars.isDeclared name then
    .ok ⟨vars.entries.map fun entry => if entry.1 = name then (name, value) else entry⟩
  else .error (.undeclared name)

@[simp] theorem value?_empty (name : String) : empty.value? name = none := rfl

/-- A declaration adds a zero and changes no value. -/
theorem value?_declare (vars : Variables) (name other : String) :
    (vars.declare name).value? other =
      (vars.value? other).or (if other = name then some 0 else none) := by
  unfold declare
  split
  · next h =>
      by_cases hother : other = name
      · subst hother
        obtain ⟨value, hvalue⟩ := Option.isSome_iff_exists.1 h
        simp [hvalue]
      · simp [hother]
  · by_cases hother : other = name <;>
      simp [value?, List.lookup_append, List.lookup_cons, hother, beq_false_of_ne]

/-- Overwriting the entries of one name shows in the look-up of that name alone. -/
theorem lookup_overwrite (entries : List (String × Int32)) (name other : String)
    (value : Int32) :
    (entries.map fun entry => if entry.1 = name then (name, value) else entry).lookup other =
      if other = name then (entries.lookup name).map fun _ => value
      else entries.lookup other := by
  induction entries with
  | nil => simp
  | cons entry entries ih =>
      obtain ⟨key, old⟩ := entry
      rw [List.map_cons]
      by_cases hkey : key = name <;> by_cases hother : other = name <;>
        by_cases hsame : other = key <;> simp_all [List.lookup_cons, beq_false_of_ne, Ne.symm]

end Variables

end StraightForth
