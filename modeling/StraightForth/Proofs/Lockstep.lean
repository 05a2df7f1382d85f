import StraightForth.Assembly.Compile
import StraightForth.Proofs.Steps
import Mathlib.Data.List.Forall2

/-!
# Two runs in lockstep

Two sessions take steps that correspond to each other. When corresponding steps keep the
states related and raise events that correspond, whole runs do so as well, and both are ended
at the same place or not at all. The same holds of two compilations. The main statements turn
what is known of single steps into what holds of runs and of listings.
-/

namespace StraightForth

/-- What related items have in common is the same list on both sides. -/
theorem map_eq_map_of_forall₂ {α β γ : Type} {related : α → β → Prop} {items : List α}
    {others : List β} (h : List.Forall₂ related items others) {f : α → γ} {g : β → γ}
    (hsame : ∀ item other, related item other → f item = g other) :
    items.map f = others.map g := by
  rw [← List.forall₂_eq_eq_eq, List.forall₂_map_left_iff, List.forall₂_map_right_iff]
  exact h.imp hsame

section Runs

variable {related : State → State → Prop} {alike : Event → Event → Prop}

/-- Two runs that started with some events in their queues went the same way: their states are
related, the events they added correspond in their order, and so do the diagnostics that ended
them, if any. -/
structure Parallel (related : State → State → Prop) (alike : Event → Event → Prop)
    (queue queue' : List Event) (first second : Session × Option Diagnostic) : Prop where
  options : first.1.options = second.1.options
  state : related first.1.state second.1.state
  events : ∃ new new', first.1.events.toList = queue ++ new ∧
    second.1.events.toList = queue' ++ new' ∧ List.Forall₂ alike new new'
  result : Option.Rel (fun report other => alike (.diagnostic report) (.diagnostic other))
    first.2 second.2

/-- What events that correspond have in common is seen in both queues. -/
theorem Parallel.map_events_eq {β : Type} {queue : List Event}
    {first second : Session × Option Diagnostic}
    (h : Parallel related alike queue queue first second) {f : Event → β}
    (hf : ∀ event event', alike event event' → f event = f event') :
    first.1.events.toList.map f = second.1.events.toList.map f := by
  obtain ⟨new, new', hnew, hnew', hevents⟩ := h.events
  rw [hnew, hnew', List.map_append, List.map_append, map_eq_map_of_forall₂ hevents hf]

/-- So is what they have in common as results. -/
theorem Parallel.map_result_eq {β : Type} {queue queue' : List Event}
    {first second : Session × Option Diagnostic}
    (h : Parallel related alike queue queue' first second) {f : Diagnostic → β}
    (hf : ∀ report other, alike (.diagnostic report) (.diagnostic other) → f report = f other) :
    first.2.map f = second.2.map f := by
  have hresult := h.result
  generalize first.2 = result at hresult
  generalize second.2 = result' at hresult
  cases hresult with
  | none => rfl
  | some halike => exact congrArg some (hf _ _ halike)

/-- Steps correspond when they have related effects on related states, and raise events that
correspond, or none. -/
def Step.Corresponds (related : State → State → Prop) (alike : Event → Event → Prop)
    (step other : Step) : Prop :=
  ∀ s t, related s t →
    related (s.execute step.command).1 (t.execute other.command).1 ∧
      Option.Rel alike (step.event? (s.execute step.command).2)
        (other.event? (t.execute other.command).2)

namespace Session

variable {session other : Session}

theorem parallel_refl (hoptions : session.options = other.options)
    (hstate : related session.state other.state) :
    Parallel related alike session.events.toList other.events.toList (session, none)
      (other, none) where
  options := hoptions
  state := hstate
  events := ⟨[], [], (List.append_nil _).symm, (List.append_nil _).symm, .nil⟩
  result := .none

/-- Corresponding steps are taken in parallel. -/
theorem parallel_take (hfatal : ∀ event event', alike event event' →
      event.isFatal = event'.isFatal)
    (hoptions : session.options = other.options) (hstate : related session.state other.state)
    {step step' : Step} (hstep : step.Corresponds related alike step') :
    Parallel related alike session.events.toList other.events.toList (session.take step)
      (other.take step') := by
  obtain ⟨hafter, hevent⟩ := hstep _ _ hstate
  have hfirst := session.take_cases step
  have hsecond := other.take_cases step'
  generalize session.state.execute step.command = effect at hafter hevent hfirst
  generalize other.state.execute step'.command = effect' at hafter hevent hsecond
  dsimp only at hfirst hsecond
  generalize step.event? effect.2 = event at hevent hfirst
  generalize step'.event? effect'.2 = event' at hevent hsecond
  -- Corresponding events are both fatal or both not, so no step is ended without the other.
  rcases hfirst with ⟨htake, hquiet⟩ | ⟨report, rfl, hends, hrecover, htake⟩ <;>
    rcases hsecond with ⟨htake', hquiet'⟩ | ⟨report', rfl, hends', hrecover', htake'⟩
  · rw [htake, htake']
    refine ⟨hoptions, hafter, ⟨_, _, toList_queueAll _ _, toList_queueAll _ _, ?_⟩, .none⟩
    cases hevent with
    | none => exact .nil
    | some hevent => exact .cons hevent .nil
  · cases hevent with
    | some hevent =>
        have hnot := hquiet (hoptions ▸ hrecover') _ rfl
        rw [hfatal _ _ hevent, Event.isFatal, hends'] at hnot
        cases hnot
  · cases hevent with
    | some hevent =>
        have hnot := hquiet' (hoptions ▸ hrecover) _ rfl
        rw [← hfatal _ _ hevent, Event.isFatal, hends] at hnot
        cases hnot
  · rw [htake, htake']
    refine ⟨hoptions, hafter,
      ⟨[], [], (List.append_nil _).symm, (List.append_nil _).symm, .nil⟩, ?_⟩
    cases hevent with
    | some hevent => exact .some hevent

/-- Runs of corresponding steps are parallel. -/
theorem parallel_takeAll (hfatal : ∀ event event', alike event event' →
      event.isFatal = event'.isFatal)
    (hoptions : session.options = other.options) (hstate : related session.state other.state)
    {steps steps' : List Step}
    (hsteps : List.Forall₂ (Step.Corresponds related alike) steps steps') :
    Parallel related alike session.events.toList other.events.toList (session.takeAll steps)
      (other.takeAll steps') := by
  induction hsteps generalizing session other with
  | nil => exact parallel_refl hoptions hstate
  | cons hstep _ ih =>
      have htake := parallel_take hfatal hoptions hstate hstep
      rw [takeAll, takeAll]
      generalize session.take _ = first at htake
      generalize other.take _ = second at htake
      obtain ⟨after, result⟩ := first
      obtain ⟨after', result'⟩ := second
      obtain ⟨hoptions, hstate, ⟨new, new', hnew, hnew', hevents⟩, hresult⟩ := htake
      cases hresult with
      | none =>
          obtain ⟨hoptions, hstate, ⟨later, later', hlater, hlater', hevents'⟩, hresult⟩ :=
            ih hoptions hstate
          refine ⟨hoptions, hstate, ⟨new ++ later, new' ++ later', ?_, ?_, ?_⟩, hresult⟩
          · rw [← List.append_assoc, ← hnew, ← hlater]
          · rw [← List.append_assoc, ← hnew', ← hlater']
          · exact List.rel_append hevents hevents'
      | some hends => exact ⟨hoptions, hstate, ⟨new, new', hnew, hnew', hevents⟩, .some hends⟩

/-- Texts with corresponding steps run in parallel, also when the sessions start afresh. -/
theorem parallel_execute (hfatal : ∀ event event', alike event event' →
      event.isFatal = event'.isFatal)
    (hoptions : session.options = other.options) (hstate : related session.state other.state)
    (hempty : related .empty .empty) {source source' : String}
    (hsteps : List.Forall₂ (Step.Corresponds related alike) (Step.ofSource source)
      (Step.ofSource source')) :
    Parallel related alike session.events.toList other.events.toList (session.execute source)
      (other.execute source') := by
  have hstart : related session.start.state other.start.state := by
    unfold start
    rw [hoptions]
    split
    · exact hstate
    · exact hempty
  have hrun := parallel_takeAll hfatal (by simpa using hoptions) hstart hsteps
  rwa [events_start, events_start] at hrun

end Session

end Runs

section Compilations

/-- Two computations both succeed with related results, or both fail with errors that are
alike. -/
inductive Both {α β ε : Type} (related : α → β → Prop) (alike : ε → ε → Prop) :
    Except ε α → Except ε β → Prop
  | ok {result : α} {other : β} (h : related result other) :
      Both related alike (.ok result) (.ok other)
  | error {error error' : ε} (h : alike error error') :
      Both related alike (.error error) (.error error')

variable {α β γ δ ε : Type} {related : α → β → Prop} {alike : ε → ε → Prop}

/-- What follows two such computations keeps them together. -/
theorem Both.bind {related' : γ → δ → Prop} {first : Except ε α} {second : Except ε β}
    (h : Both related alike first second) {next : α → Except ε γ} {next' : β → Except ε δ}
    (hnext : ∀ result other, related result other →
      Both related' alike (next result) (next' other)) :
    Both related' alike (first >>= next) (second >>= next') := by
  cases h with
  | ok h => exact hnext _ _ h
  | error h => exact .error h

theorem Both.map {related' : γ → δ → Prop} {first : Except ε α} {second : Except ε β}
    (h : Both related alike first second) {f : α → γ} {g : β → δ}
    (hmap : ∀ result other, related result other → related' (f result) (g other)) :
    Both related' alike (first.map f) (second.map g) := by
  cases h with
  | ok h => exact .ok (hmap _ _ h)
  | error h => exact .error h

/-- Two folds over corresponding lists keep their results related. -/
theorem both_foldlM {same : γ → δ → Prop} {step : α → γ → Except ε α} {step' : β → δ → Except ε β}
    (hstep : ∀ result other item item', related result other → same item item' →
      Both related alike (step result item) (step' other item'))
    {items : List γ} {items' : List δ} (hitems : List.Forall₂ same items items')
    {result : α} {other : β} (h : related result other) :
    Both related alike (items.foldlM step result) (items'.foldlM step' other) := by
  induction hitems generalizing result other with
  | nil => exact .ok h
  | cons hitem _ ih =>
      rw [List.foldlM_cons, List.foldlM_cons]
      exact (hstep _ _ _ _ h hitem).bind fun _ _ hnext => ih hnext

end Compilations

section Listings

open Assembly

variable {related : Shape → Shape → Prop} {same : TextLine → TextLine → Prop}
variable {alike : Diagnostic → Diagnostic → Prop}

/-- Two drafts resemble each other when their shapes are related and their lines are the same
and their errors alike, in whatever sense, one by one. -/
structure Assembly.Draft.Resembles (related : Shape → Shape → Prop)
    (same : TextLine → TextLine → Prop) (alike : Diagnostic → Diagnostic → Prop)
    (draft other : Draft) : Prop where
  shape : related draft.shape other.shape
  text : List.Forall₂ same draft.text.toList other.text.toList
  errors : List.Forall₂ alike draft.errors.toList other.errors.toList

/-- Steps resemble each other when related shapes give them code of the same lines, related
shapes after it, and faults whose reports are alike, or none. -/
def Step.Resembles (related : Shape → Shape → Prop) (same : TextLine → TextLine → Prop)
    (alike : Diagnostic → Diagnostic → Prop) (step other : Step) : Prop :=
  ∀ s t, related s t →
    related (s.execute step.command).shape (t.execute other.command).shape ∧
      List.Forall₂ same (s.execute step.command).lines (t.execute other.command).lines ∧
      Option.Rel (fun fault fault' => alike (fault.reportAt step.line step.column)
          (fault'.reportAt other.line other.column))
        (s.execute step.command).fault (t.execute other.command).fault

/-- Lines resemble each other when their steps do, and when both are shown alike or left out. -/
structure Line.Resembles (related : Shape → Shape → Prop) (same : TextLine → TextLine → Prop)
    (alike : Diagnostic → Diagnostic → Prop) (line other : Line) : Prop where
  isEmpty : line.isEmpty = other.isEmpty
  source : same (.source line) (.source other)
  steps : List.Forall₂ (Step.Resembles related same alike) line.steps other.steps

namespace Assembly

/-- Steps that resemble each other keep drafts so, or end both compilations. -/
theorem Draft.Resembles.step {draft other : Draft} (h : draft.Resembles related same alike other)
    (hfatal : ∀ report report', alike report report' → report.isFatal = report'.isFatal)
    (hreport : ∀ report report', alike report report' → same (.report report) (.report report'))
    (recover : Bool) {step step' : Step} (hstep : step.Resembles related same alike step') :
    Both (Draft.Resembles related same alike) alike (draft.step recover step)
      (other.step recover step') := by
  obtain ⟨hshape, hlines, hfault⟩ := hstep _ _ h.shape
  simp only [Draft.step]
  generalize draft.shape.execute step.command = emission at hshape hlines hfault
  generalize other.shape.execute step'.command = emission' at hshape hlines hfault
  obtain ⟨shape, lines, fault⟩ := emission
  obtain ⟨shape', lines', fault'⟩ := emission'
  have htext : List.Forall₂ same (draft.text ++ lines).toList (other.text ++ lines').toList := by
    rw [Array.toList_appendList, Array.toList_appendList]
    exact List.rel_append h.text hlines
  cases hfault with
  | none => exact .ok ⟨hshape, htext, h.errors⟩
  | some halike =>
      dsimp only
      rw [hfatal _ _ halike]
      split
      · exact .error halike
      · refine .ok ⟨hshape, ?_, ?_⟩
        · rw [Array.toList_push, Array.toList_push]
          exact List.rel_append htext (.cons (hreport _ _ halike) .nil)
        · rw [Array.toList_push, Array.toList_push]
          exact List.rel_append h.errors (.cons halike .nil)

theorem Draft.Resembles.line {draft other : Draft} (h : draft.Resembles related same alike other)
    (hfatal : ∀ report report', alike report report' → report.isFatal = report'.isFatal)
    (hreport : ∀ report report', alike report report' → same (.report report) (.report report'))
    (recover : Bool) {line line' : Line} (hline : line.Resembles related same alike line') :
    Both (Draft.Resembles related same alike) alike (draft.line recover line)
      (other.line recover line') := by
  simp only [Draft.line, hline.isEmpty]
  split
  · exact .ok h
  · refine both_foldlM (fun _ _ _ _ h hstep => h.step hfatal hreport recover hstep) hline.steps ?_
    refine ⟨h.shape, ?_, h.errors⟩
    rw [Array.toList_push, Array.toList_push]
    exact List.rel_append h.text (.cons hline.source .nil)

/-- Texts of lines that resemble each other give such drafts, or end with errors that are
alike. -/
theorem both_drafts
    (hfatal : ∀ report report', alike report report' → report.isFatal = report'.isFatal)
    (hreport : ∀ report report', alike report report' → same (.report report) (.report report'))
    (hempty : related .empty .empty) (recover : Bool) {lines lines' : List Line}
    (hlines : List.Forall₂ (Line.Resembles related same alike) lines lines') :
    Both (Draft.Resembles related same alike) alike
      (lines.foldlM (Draft.line recover) Draft.empty)
      (lines'.foldlM (Draft.line recover) Draft.empty) :=
  both_foldlM (fun _ _ _ _ h hline => h.line hfatal hreport recover hline) hlines
    ⟨hempty, .nil, .nil⟩

end Assembly

end Listings

end StraightForth
