import StraightForth.Session

/-!
# What a step can do

A step changes the state by the effect of its command, and raises one event at most. It ends
the run exactly when that event is a fatal diagnostic and the session does not recover from
such; in any other case the event is queued. All that is known of runs follows from this case
analysis: the options stay, the queue only grows, and a run that is ended goes on until one
step of it.
-/

namespace StraightForth

/-- The event of a step with a given outcome. -/
def Step.event? (step : Step) : Outcome → Option Event
  | .done => none
  | .printed text => some (.print text)
  | .abandoned fault => some (.diagnostic (fault.reportAt step.line step.column))

/-- Whether an event is a fatal diagnostic. -/
def Event.isFatal : Event → Bool
  | .print _ => false
  | .diagnostic report => report.isFatal

theorem Event.isFatal_iff {event : Event} :
    event.isFatal = true ↔
      ∃ report, event = .diagnostic report ∧ report.kind = .typeMismatch := by
  cases event with
  | print text => simp [isFatal]
  | diagnostic report => simp [isFatal, Diagnostic.isFatal]

namespace Session

/-- Add some events to the end of the queue, in their order. -/
def queueAll (session : Session) (events : List Event) : Session :=
  { session with events := session.events ++ events }

@[simp] theorem toList_queueAll (session : Session) (events : List Event) :
    (session.queueAll events).events.toList = session.events.toList ++ events := by
  simp [queueAll]

/-- A step goes on with its event in the queue, or it ends the run with a fatal diagnostic. -/
theorem take_cases (session : Session) (step : Step) :
    let effect := session.state.execute step.command
    let event := step.event? effect.2
    (session.take step = (({ session with state := effect.1 }).queueAll event.toList, none) ∧
      (session.options.recover = false → ∀ raised ∈ event, raised.isFatal = false)) ∨
    ∃ report, event = some (.diagnostic report) ∧ report.isFatal = true ∧
      session.options.recover = false ∧
      session.take step = ({ session with state := effect.1 }, some report) := by
  simp only [take]
  obtain ⟨state, outcome⟩ := session.state.execute step.command
  cases outcome with
  | done => simp [Step.event?, queueAll]
  | printed text => simp [Step.event?, queueAll, queue, Event.isFatal]
  | abandoned fault =>
      dsimp only [Step.event?]
      by_cases hends : ((fault.reportAt step.line step.column).isFatal &&
          !session.options.recover) = true
      · rw [if_pos hends]
        obtain ⟨hfatal, hrecover⟩ := Bool.and_eq_true_iff.1 hends
        exact .inr ⟨_, rfl, hfatal, by simpa using hrecover, rfl⟩
      · rw [if_neg hends]
        refine .inl ⟨by simp [queueAll, queue], ?_⟩
        rintro hrecover raised ⟨⟩
        simpa [hrecover, Event.isFatal] using hends

section

variable {session after : Session} {step : Step} {steps : List Step} {fatal : Diagnostic}

/-- The state after a step is that of the effect, also when the step ends the run. -/
theorem state_take (session : Session) (step : Step) :
    (session.take step).1.state = (session.state.execute step.command).1 := by
  rcases session.take_cases step with ⟨htake, _⟩ | ⟨report, _, _, _, htake⟩
  · rw [htake]
    rfl
  · rw [htake]

/-- The event of a step gets into the queue, or it is the diagnostic that ends the run. -/
theorem events_take (session : Session) (step : Step) :
    (session.take step).1.events.toList ++ ((session.take step).2.map Event.diagnostic).toList =
      session.events.toList ++
        (step.event? (session.state.execute step.command).2).toList := by
  rcases session.take_cases step with ⟨htake, _⟩ | ⟨report, hevent, _, _, htake⟩
  · rw [htake]
    exact (List.append_nil _).trans (toList_queueAll _ _)
  · rw [htake, hevent]
    rfl

theorem options_take (session : Session) (step : Step) :
    (session.take step).1.options = session.options := by
  rcases session.take_cases step with ⟨htake, _⟩ | ⟨report, _, _, _, htake⟩
  · rw [htake]
    rfl
  · rw [htake]

/-- Only a fatal diagnostic ends a step, and only if it is not to be recovered from. -/
theorem isFatal_of_take (h : session.take step = (after, some fatal)) :
    fatal.isFatal = true ∧ session.options.recover = false := by
  rcases session.take_cases step with ⟨htake, _⟩ | ⟨report, _, hfatal, hrecover, htake⟩
  · rw [htake] at h
    cases h
  · rw [htake] at h
    cases h
    exact ⟨hfatal, hrecover⟩

/-- What a step puts into the queue is no fatal diagnostic, unless fatal ones are recovered
from. -/
theorem exists_events_take (session : Session) (step : Step) :
    ∃ new, (session.take step).1.events.toList = session.events.toList ++ new ∧
      (session.options.recover = false → ∀ event ∈ new, event.isFatal = false) := by
  rcases session.take_cases step with ⟨htake, hnew⟩ | ⟨report, _, _, _, htake⟩
  · rw [htake]
    exact ⟨_, toList_queueAll _ _, fun hrecover event hevent =>
      hnew hrecover event (Option.mem_toList.1 hevent)⟩
  · rw [htake]
    exact ⟨[], (List.append_nil _).symm, fun _ _ hevent => absurd hevent List.not_mem_nil⟩

/-- A run never changes the options of its session. -/
theorem options_takeAll (session : Session) (steps : List Step) :
    (session.takeAll steps).1.options = session.options := by
  induction steps generalizing session with
  | nil => rfl
  | cons step rest ih =>
      have hstep := session.options_take step
      rw [takeAll]
      generalize session.take step = result at hstep
      obtain ⟨after, _ | fatal⟩ := result
      · exact (ih after).trans hstep
      · exact hstep

/-- The queue grows at its end only. Without recovery no fatal diagnostic gets into it. -/
theorem exists_events_takeAll (session : Session) (steps : List Step) :
    ∃ new, (session.takeAll steps).1.events.toList = session.events.toList ++ new ∧
      (session.options.recover = false → ∀ event ∈ new, event.isFatal = false) := by
  induction steps generalizing session with
  | nil => exact ⟨[], (List.append_nil _).symm, by simp⟩
  | cons step rest ih =>
      have hoptions := session.options_take step
      obtain ⟨first, hfirst, hquiet⟩ := session.exists_events_take step
      rw [takeAll]
      generalize session.take step = result at hoptions hfirst
      obtain ⟨after, _ | fatal⟩ := result
      · obtain ⟨later, hlater, hquiet'⟩ := ih after
        refine ⟨first ++ later, ?_, ?_⟩
        · calc
            (after.takeAll rest).1.events.toList = after.events.toList ++ later := hlater
            _ = session.events.toList ++ (first ++ later) := by
              rw [show after.events.toList = _ from hfirst, List.append_assoc]
        · intro hrecover event hevent
          have hafter : after.options.recover = false := by
            rw [show after.options = _ from hoptions, hrecover]
          rcases List.mem_append.1 hevent with hevent | hevent
          · exact hquiet hrecover event hevent
          · exact hquiet' hafter event hevent
      · exact ⟨first, hfirst, hquiet⟩

/-- A run that is ended comes to one step without being ended, and that step ends it. -/
theorem exists_last_step (h : session.takeAll steps = (after, some fatal)) :
    ∃ before step rest prior, steps = before ++ step :: rest ∧
      session.takeAll before = (prior, none) ∧ prior.take step = (after, some fatal) := by
  induction steps generalizing session with
  | nil => cases h
  | cons step rest ih =>
      rw [takeAll] at h
      split at h
      · next next hnext =>
          obtain ⟨before, last, later, prior, rfl, hprior, hlast⟩ := ih h
          refine ⟨step :: before, last, later, prior, rfl, ?_, hlast⟩
          rw [takeAll, hnext]
          exact hprior
      · next ended _ hended =>
          cases h
          exact ⟨[], step, rest, session, rfl, rfl, hended⟩

/-- Only a fatal diagnostic ends a run, and only if it is not to be recovered from. -/
theorem isFatal_of_takeAll (h : session.takeAll steps = (after, some fatal)) :
    fatal.isFatal = true ∧ session.options.recover = false := by
  obtain ⟨before, last, _, prior, _, hprior, hlast⟩ := exists_last_step h
  have hoptions := session.options_takeAll before
  rw [hprior] at hoptions
  obtain ⟨hfatal, hrecover⟩ := isFatal_of_take hlast
  exact ⟨hfatal, hoptions ▸ hrecover⟩

end

/-- The session in which a text is run. -/
def start (session : Session) : Session :=
  if session.options.persist then session else session.clear

@[simp] theorem options_start (session : Session) : session.start.options = session.options := by
  unfold start
  split <;> rfl

@[simp] theorem events_start (session : Session) : session.start.events = session.events := by
  unfold start
  split <;> rfl

end Session

end StraightForth
