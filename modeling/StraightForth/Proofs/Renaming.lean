import StraightForth.Proofs.Columns
import StraightForth.Proofs.Identifiers
import StraightForth.Proofs.Likeness.Listings
import StraightForth.Proofs.Rewording
import Mathlib.Logic.Equiv.Basic

/-!
# Names are opaque

How a name is spelled makes no difference. Let other identifiers stand for the identifiers of a
text, no one for two of them. The main statement is that the new text runs as the old one does,
with the new names in the places of the old ones, and that it compiles to the same code, with
the names and variables numbered in the same order.
-/

namespace StraightForth

/-- A name that can be written. -/
@[ext]
structure Identifier where
  name : String
  isIdentifier : IsIdentifier name
deriving DecidableEq

/-- The diagnostic without its column and its message. -/
def Diagnostic.forgetWording (report : Diagnostic) : Diagnostic :=
  ⟨report.kind, report.line, Span.unset, ""⟩

/-- The kind of the event, and for a diagnostic its cause and its line. -/
def Event.forgetWording : Event → Event
  | .print _ => .print ""
  | .diagnostic report => .diagnostic report.forgetWording

section Renaming

variable (r : Identifier → Identifier)

/-- The name that stands for a name. Only identifiers have others standing for them. -/
def renameName (x : String) : String :=
  if h : IsIdentifier x then (r ⟨x, h⟩).name else x

/-- The text with every identifier in front of comments renamed. -/
def renameSource (source : String) : String :=
  reworded (fun word => (renameName r (String.ofList word)).toList) source

/-- The operand with its name renamed, if it has one. -/
def Operand.rename : Operand → Operand
  | .integer value => .integer value
  | .name x => .name (renameName r x)

variable {r}

theorem renameName_name (x : Identifier) : renameName r x.name = (r x).name :=
  dif_pos x.isIdentifier

theorem renameName_of_not {x : String} (h : ¬ IsIdentifier x) : renameName r x = x :=
  dif_neg h

/-- An identifier stands for a name exactly if the name is one itself. -/
theorem isIdentifier_renameName_iff {x : String} :
    IsIdentifier (renameName r x) ↔ IsIdentifier x := by
  by_cases h : IsIdentifier x
  · rw [renameName_name ⟨x, h⟩]
    exact iff_of_true (r ⟨x, h⟩).isIdentifier h
  · rw [renameName_of_not h]

theorem renameName_injective (hr : Function.Injective r) :
    Function.Injective (renameName r) := by
  intro x y hsame
  have hboth : IsIdentifier x ↔ IsIdentifier y := by
    rw [← isIdentifier_renameName_iff (r := r), hsame, isIdentifier_renameName_iff]
  by_cases hx : IsIdentifier x
  · have hy := hboth.1 hx
    rw [renameName_name ⟨x, hx⟩, renameName_name ⟨y, hy⟩] at hsame
    exact congrArg Identifier.name (hr (Identifier.ext hsame))
  · have hy := mt hboth.2 hx
    rwa [renameName_of_not hx, renameName_of_not hy] at hsame

variable (r) in
/-- Integers stand for themselves, and a name for the one that stands for it. -/
def Likeness.renaming (hr : Function.Injective r) : Likeness where
  keepsValues := True
  name x y := renameName r x = y
  name_iff := by
    rintro x _ y _ rfl rfl
    exact (renameName_injective hr).eq_iff.symm

namespace Token

/-- What is read from a word is alike to what is read from the word that stands for it. -/
theorem alike_renaming (hr : Function.Injective r) {word : List Char} (h : Text.Solid word) :
    (ofString (String.ofList word)).Alike (.renaming r hr)
      (ofString (renameName r (String.ofList word))) := by
  by_cases hident : IsIdentifier (String.ofList word)
  · have hnew := isIdentifier_renameName_iff (r := r).2 hident
    rw [hident.ident, hnew.ident]
    exact .ident rfl
  · rw [renameName_of_not hident]
    rcases ofString_cases (String.ofList word) with ⟨found, _, hread⟩ | ⟨value, _, _, hread⟩ |
      ⟨_, _, hread⟩
    · rw [hread]
      exact .word found
    · rw [hread]
      exact .literal fun _ => rfl
    · have hlegible : (Token.ident (String.ofList word)).Legible :=
        ⟨by rwa [Token.text, String.toList_ofList], hread⟩
      exact (hident (isIdentifier_iff_legible.2 hlegible)).elim

end Token

/-- A text is alike to the renamed one. -/
theorem Line.alike_renameSource (hr : Function.Injective r) (source : String) :
    List.Forall₂ (Alike (.renaming r hr)) (ofSource source) (ofSource (renameSource r source)) := by
  apply alike_reworded
  · intro word hword
    by_cases hident : IsIdentifier (String.ofList word)
    · exact (isIdentifier_iff_legible.1 (isIdentifier_renameName_iff (r := r).2 hident)).solid
    · rwa [renameName_of_not hident, String.toList_ofList]
  · intro word hword
    rw [String.ofList_toList]
    exact Token.alike_renaming hr hword

section Reading

variable {hr : Function.Injective r}

theorem Operand.Alike.rename_eq {operand other : Operand}
    (h : operand.Alike (.renaming r hr) other) : operand.rename r = other := by
  cases h with
  | integer hvalue => exact congrArg Operand.integer (hvalue trivial)
  | name hname => exact congrArg Operand.name hname

theorem map_rename_eq {items others : List Operand}
    (h : List.Forall₂ (Operand.Alike (.renaming r hr)) items others) :
    others = items.map (Operand.rename r) := by
  have hmap := map_eq_map_of_forall₂ h fun _ _ hoperand => hoperand.rename_eq
  rwa [List.map_id', eq_comm] at hmap

theorem map_renameName_eq {names others : List String}
    (h : List.Forall₂ (Likeness.renaming r hr).name names others) :
    others = names.map (renameName r) := by
  have hmap := map_eq_map_of_forall₂ h fun _ _ hname => hname
  rwa [List.map_id', eq_comm] at hmap

theorem Variables.Alike.value?_renameName {vars other : Variables}
    (h : vars.Alike (.renaming r hr) other) (x : String) :
    other.value? (renameName r x) = vars.value? x := by
  have hvalues := h.value? (show (Likeness.renaming r hr).name x (renameName r x) from rfl)
  generalize vars.value? x = value at hvalues ⊢
  generalize other.value? (renameName r x) = value' at hvalues ⊢
  cases hvalues with
  | none => rfl
  | some hvalue => exact congrArg some (hvalue trivial).symm

/-- Lines that are read by the assembler have no names in them. -/
theorem Assembly.TextLine.Alike.eq_of_isAssembled {line other : TextLine}
    (h : line.Alike (.renaming r hr) other) (hline : line.isAssembled = true) : line = other := by
  cases h with
  | code instruction => rfl
  | pushInt hvalue => rw [hvalue trivial]
  | label index => rfl
  | source line other => cases hline
  | report report report' => cases hline

theorem Diagnostic.Alike.forgetWording {l : Likeness} {report other : Diagnostic}
    (h : report.Alike l other) : report.forgetWording = other.forgetWording := by
  rw [Diagnostic.forgetWording, Diagnostic.forgetWording, h.kind, h.line]

theorem Event.Alike.forgetWording {l : Likeness} {event other : Event} (h : event.Alike l other) :
    event.forgetWording = other.forgetWording := by
  cases h with
  | print text text' => rfl
  | diagnostic hreport => exact congrArg Event.diagnostic hreport.forgetWording

end Reading

open Assembly in
/-- Names are opaque. Let each identifier have another one standing for it, and no two the same,
and let all identifiers of a text be renamed. In new sessions the renamed text leaves the stack
of the old one with its names renamed, and every variable has its old value under its new name.
The results and the events are of the same kinds, in the same order and from the same lines.
Both texts compile or none does. The listings have the same instructions and labels, and their
rows are those of the renamed names and variables in the old order. -/
theorem spellings_steer_nothing {r : Identifier → Identifier} (hr : Function.Injective r)
    (options : Options) (source : String) :
    let run := (Session.new options).execute source
    let run' := (Session.new options).execute (renameSource r source)
    run'.1.state.stack.items = run.1.state.stack.items.map (Operand.rename r) ∧
      (∀ x : Identifier,
        run'.1.state.vars.value? (r x).name = run.1.state.vars.value? x.name) ∧
      run'.2.map Diagnostic.forgetWording = run.2.map Diagnostic.forgetWording ∧
      run'.1.events.toList.map Event.forgetWording =
        run.1.events.toList.map Event.forgetWording ∧
      match compile options.recover source, compile options.recover (renameSource r source) with
      | .ok listing, .ok listing' =>
          listing'.assembled = listing.assembled ∧
            listing'.names = listing.names.map (renameName r) ∧
            listing'.vars = listing.vars.map (renameName r)
      | .error report, .error report' => report'.forgetWording = report.forgetWording
      | _, _ => False := by
  intro run run'
  let session := Session.new options
  have hlines := Line.alike_renameSource hr source
  have hrun : Parallel (State.Alike (.renaming r hr)) (Event.Alike (.renaming r hr))
      session.events.toList session.events.toList run run' :=
    Session.parallel_of_alike hlines rfl .empty
  refine ⟨map_rename_eq hrun.state.stack, ?_, ?_, ?_, ?_⟩
  · intro x
    rw [← renameName_name]
    exact hrun.state.vars.value?_renameName x.name
  · exact (hrun.map_result_eq fun _ _ h => Event.diagnostic.inj h.forgetWording).symm
  · exact (hrun.map_events_eq fun _ _ h => h.forgetWording).symm
  · have hboth := both_compile_of_alike hlines options.recover
    generalize compile options.recover source = compiled at hboth ⊢
    generalize compile options.recover (renameSource r source) = compiled' at hboth ⊢
    cases hboth with
    | error hreport => exact hreport.forgetWording.symm
    | ok halike =>
        obtain ⟨hnames, hvars, htext⟩ := halike
        have hsame := Listing.map_assembled_eq htext fun _ _ h => h.eq_of_isAssembled
        rw [List.map_id', List.map_id'] at hsame
        exact ⟨hsame.symm, map_renameName_eq hnames, map_renameName_eq hvars⟩

/-- Two identifiers exchanged. -/
def exchanged : Identifier → Identifier :=
  Equiv.swap ⟨"x", by decide +kernel⟩ ⟨"[y],", by decide +kernel⟩

/-- A name in the place of an integer and a variable that is missing have reports of their
own, which are renamed too. -/
theorem spellings_steer_nothing_when_exchanged :
    let source := "variable x 5 x ! x @ -x\\ x\n[y], @ x x 1 +"
    Function.Injective exchanged ∧
      ((Session.new {}).execute (renameSource exchanged source)).1.state.stack.items =
        ((Session.new {}).execute source).1.state.stack.items.map (Operand.rename exchanged) := by
  intro source
  have hr : Function.Injective exchanged := Equiv.injective _
  exact ⟨hr, (spellings_steer_nothing hr {} source).1⟩

example :
    renameSource exchanged "variable x\t-x\\ x\nx [y],\\[y]," =
      "variable [y],\t-x\\ x\n[y], x\\[y]," := by
  decide +kernel

end Renaming

end StraightForth
