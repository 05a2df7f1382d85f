import StraightForth.Proofs.Likeness.Runs
import StraightForth.Proofs.Spelling

/-!
# The names of a session

A name comes into a session through a token that was read as one, and no command makes it up
from anything else. So the names on the stack and the names of variables are identifiers,
whatever the session is made to do.

## Implementation notes

That all names of a state are identifiers is said by a likeness of the state with itself. What
runs keep of likenesses is known already, and need not be proved again for this invariant.
-/

namespace StraightForth

/-- A text that can be written as a name: it is not empty, has no white space, starts no comment,
and is read as no word and no integer. -/
structure IsIdentifier (x : String) : Prop where
  nonempty : x ≠ ""
  visible : ∀ c ∈ x.toList, c ∉ Text.whiteSpace
  comment : '\\' ∉ x.toList
  ident : Token.ofString x = .ident x

section Identifiers

variable {x : String}

/-- Identifiers are the names that stand on lines. -/
theorem isIdentifier_iff_legible : IsIdentifier x ↔ (Token.ident x).Legible := by
  constructor
  · intro h
    refine ⟨⟨?_, ?_, h.comment⟩, h.ident⟩
    · exact mt String.toList_eq_nil_iff.1 h.nonempty
    · intro c hc
      rw [← Bool.not_eq_true, Text.isBlank_iff]
      exact h.visible c hc
  · intro h
    refine ⟨?_, ?_, h.solid.comment, h.reread⟩
    · exact mt String.toList_eq_nil_iff.2 h.solid.nonempty
    · exact fun c hc => Text.not_mem_whiteSpace (h.solid.visible c hc)

theorem isIdentifier_iff :
    IsIdentifier x ↔ x ≠ "" ∧ (x.toList.all fun c => c ∉ Text.whiteSpace) = true ∧
      '\\' ∉ x.toList ∧ Token.ofString x = .ident x := by
  simp only [List.all_eq_true, decide_eq_true_eq]
  constructor
  · exact fun h => ⟨h.nonempty, h.visible, h.comment, h.ident⟩
  · exact fun ⟨hnonempty, hvisible, hcomment, hident⟩ => ⟨hnonempty, hvisible, hcomment, hident⟩

instance (x : String) : Decidable (IsIdentifier x) :=
  decidable_of_iff _ isIdentifier_iff.symm

end Identifiers

/-- Names and integers stand for themselves, and there are no names but identifiers. -/
def Likeness.ofIdentifiers : Likeness where
  keepsValues := True
  name x y := x = y ∧ IsIdentifier x
  name_iff := by
    rintro x _ y _ ⟨rfl, _⟩ ⟨rfl, _⟩
    exact Iff.rfl

/-- The lines of any source have no names but identifiers. -/
theorem Line.alike_ofIdentifiers (source : String) :
    List.Forall₂ (Alike .ofIdentifiers) (ofSource source) (ofSource source) := by
  apply alike_self
  intro line hline token htoken
  have hlegible := legible_of_mem_ofSource hline token htoken
  revert hlegible
  cases token.item with
  | word word => exact fun _ => .word word
  | literal n => exact fun _ => .literal fun _ => rfl
  | ident x => exact fun hlegible => .ident ⟨rfl, isIdentifier_iff_legible.2 hlegible⟩

namespace State

variable {s : State}

/-- All names of a state are identifiers. -/
structure HasIdentifiers (s : State) : Prop where
  stack : ∀ x, .name x ∈ s.stack.items → IsIdentifier x
  vars : ∀ x ∈ s.vars.names, IsIdentifier x

theorem hasIdentifiers_of_alike (h : s.Alike .ofIdentifiers s) : s.HasIdentifiers where
  stack x hx := by
    have hoperand := List.forall₂_same.1 h.stack _ hx
    cases hoperand with
    | name hname => exact hname.2
  vars x hx := (List.forall₂_same.1 h.vars.names x hx).2

end State

namespace Session

variable {session : Session}

/-- A call brings in no names but identifiers. -/
theorem alike_call (h : session.state.Alike .ofIdentifiers session.state) (call : Call) :
    (session.call call).state.Alike .ofIdentifiers (session.call call).state := by
  cases call with
  | execute source => exact (parallel_of_alike (Line.alike_ofIdentifiers source) rfl h).state
  | clear => exact .empty
  | drain => exact h

theorem alike_calls (h : session.state.Alike .ofIdentifiers session.state) (calls : List Call) :
    (calls.foldl call session).state.Alike .ofIdentifiers (calls.foldl call session).state := by
  induction calls generalizing session with
  | nil => exact h
  | cons call rest ih => exact ih (alike_call h call)

/-- Whatever a new session is made to do, its names are identifiers. -/
theorem hasIdentifiers_calls (options : Options) (calls : List Call) :
    (calls.foldl call (Session.new options)).state.HasIdentifiers :=
  State.hasIdentifiers_of_alike (alike_calls .empty calls)

end Session

end StraightForth
