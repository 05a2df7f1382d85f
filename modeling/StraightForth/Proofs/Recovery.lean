import StraightForth.Proofs.Steps

/-!
# Recovery from fatal faults

Two sessions run a text from the same stack, variables and events, and only one of them recovers
from fatal faults. The main statement is that nothing tells them apart before the first fatal
fault. There the other one stops: its events and its fatal diagnostic are the first events of
the recovering session, and its state is the one from which that session goes on.
-/

namespace StraightForth.Session

/-- The same session, but recovering from fatal faults. -/
def recovering (session : Session) : Session :=
  { session with options := { session.options with recover := true } }

section

variable {session after : Session} {step : Step} {steps : List Step} {fatal : Diagnostic}

/-- A session that recovers is never ended. -/
theorem takeAll_eq_none_of_recover (h : session.options.recover = true) (steps : List Step) :
    (session.takeAll steps).2 = none := by
  cases hresult : (session.takeAll steps).2 with
  | none => rfl
  | some fatal =>
      have hends := (isFatal_of_takeAll (Prod.ext rfl hresult)).2
      rw [h] at hends
      cases hends

/-- Recovery changes nothing about a step that goes on. -/
theorem take_recovering_of_none (h : session.take step = (after, none)) :
    session.recovering.take step = (after.recovering, none) := by
  rcases session.take_cases step with ⟨htake, _⟩ | ⟨_, _, _, _, htake⟩
  · rw [htake] at h
    obtain rfl := (Prod.mk.inj h).1
    rcases session.recovering.take_cases step with ⟨hrecovering, _⟩ | ⟨_, _, _, hends, _⟩
    · exact hrecovering
    · cases hends
  · rw [htake] at h
    cases h

/-- With recovery, the diagnostic that would have ended a step is queued. -/
theorem take_recovering_of_some (h : session.take step = (after, some fatal)) :
    after.events = session.events ∧
      session.recovering.take step = (after.recovering.queue (.diagnostic fatal), none) := by
  rcases session.take_cases step with ⟨htake, _⟩ | ⟨report, hevent, _, _, htake⟩
  · rw [htake] at h
    cases h
  · rw [htake] at h
    cases h
    rcases session.recovering.take_cases step with ⟨hrecovering, _⟩ | ⟨_, _, _, hends, _⟩
    · refine ⟨rfl, hrecovering.trans ?_⟩
      rw [show step.event? (session.recovering.state.execute step.command).2 = _ from hevent]
      simp [queueAll, queue, recovering]
    · cases hends

/-- Recovery changes nothing about a run that comes to its end. -/
theorem takeAll_recovering_of_none (h : session.takeAll steps = (after, none)) :
    session.recovering.takeAll steps = (after.recovering, none) := by
  induction steps generalizing session with
  | nil =>
      obtain rfl := (Prod.mk.inj h).1
      rfl
  | cons step rest ih =>
      rw [takeAll] at h ⊢
      split at h
      · next next hnext =>
          rw [take_recovering_of_none hnext]
          exact ih h
      · cases h

/-- The run that is ended and the recovering run part at one step. Up to it they are the same,
and from it the recovering run goes on with the state that the other one leaves. -/
theorem exists_parting_step (h : session.takeAll steps = (after, some fatal)) :
    ∃ before step rest prior, steps = before ++ step :: rest ∧
      session.recovering.takeAll before = (prior, none) ∧ prior.events = after.events ∧
      prior.take step = (after.recovering.queue (.diagnostic fatal), none) ∧
      session.recovering.takeAll steps =
        (after.recovering.queue (.diagnostic fatal)).takeAll rest := by
  obtain ⟨before, step, rest, prior, rfl, hbefore, hlast⟩ := exists_last_step h
  obtain ⟨hevents, htake⟩ := take_recovering_of_some hlast
  have hprior := takeAll_recovering_of_none hbefore
  refine ⟨before, step, rest, prior.recovering, rfl, hprior, hevents.symm, htake, ?_⟩
  rw [takeAll_append, hprior]
  change prior.recovering.takeAll (step :: rest) = _
  rw [takeAll, htake]

end

theorem start_recovering (session : Session) :
    session.recovering.start = session.start.recovering := by
  cases hpersist : session.options.persist with
  | false => simp [start, recovering, clear, hpersist]
  | true => simp [start, recovering, hpersist]

/-- Recovery changes only what happens from the first fatal fault on. A recovering session is
never ended. Without recovery no type mismatch is queued, and a text that comes to its end
leaves the same behind with and without recovery. A text that is ended is ended by a type
mismatch: it is what the recovering session queues next, and the state that is left is the one
in which the recovering session takes the step that queues it. -/
theorem execute_recovering (persist : Bool) (state : State) (events : Array Event)
    (source : String) :
    let strict := (⟨⟨false, persist⟩, state, events⟩ : Session).execute source
    let session : Session := ⟨⟨true, persist⟩, state, events⟩
    let lenient := session.execute source
    lenient.2 = none ∧
      (∃ new, strict.1.events.toList = events.toList ++ new ∧
        ∀ report, .diagnostic report ∈ new → report.kind ≠ .typeMismatch) ∧
      (strict.2 = none →
        lenient.1.state = strict.1.state ∧ lenient.1.events = strict.1.events) ∧
      ∀ fatal, strict.2 = some fatal →
        fatal.kind = .typeMismatch ∧
        strict.1.events.toList ++ [.diagnostic fatal] <+: lenient.1.events.toList ∧
        ∃ before step rest, Step.ofSource source = before ++ step :: rest ∧
          let prior := (session.start.takeAll before).1
          let moment : Session :=
            ⟨session.options, strict.1.state, strict.1.events.push (.diagnostic fatal)⟩
          session.start.takeAll before = (prior, none) ∧ prior.events = strict.1.events ∧
            prior.take step = (moment, none) ∧ lenient = moment.takeAll rest := by
  intro strict session lenient
  let plain : Session := ⟨⟨false, persist⟩, state, events⟩
  have hstrict : strict = plain.start.takeAll (Step.ofSource source) := rfl
  have hstart : session.start = plain.start.recovering := start_recovering plain
  have hlenient : lenient = plain.start.recovering.takeAll (Step.ofSource source) := by
    rw [← hstart]
    rfl
  refine ⟨?_, ?_, ?_, ?_⟩
  · rw [hlenient]
    exact takeAll_eq_none_of_recover rfl _
  · obtain ⟨new, hnew, hquiet⟩ := plain.start.exists_events_takeAll (Step.ofSource source)
    refine ⟨new, by rw [hstrict, hnew, events_start], ?_⟩
    intro report hreport hkind
    have hfatal := hquiet (by rw [options_start]) _ hreport
    rw [Event.isFatal_iff.2 ⟨report, rfl, hkind⟩] at hfatal
    cases hfatal
  · intro hnone
    have hended : plain.start.takeAll (Step.ofSource source) = (strict.1, none) :=
      hstrict.symm.trans (Prod.ext rfl hnone)
    have hboth := takeAll_recovering_of_none hended
    rw [hlenient, hboth]
    exact ⟨rfl, rfl⟩
  · intro fatal hfatal
    have hended : plain.start.takeAll (Step.ofSource source) = (strict.1, some fatal) :=
      hstrict.symm.trans (Prod.ext rfl hfatal)
    have hkind : fatal.kind = .typeMismatch := by
      simpa [Diagnostic.isFatal] using (isFatal_of_takeAll hended).1
    obtain ⟨before, step, rest, prior, hsteps, hprior, hevents, htake, hrest⟩ :=
      exists_parting_step hended
    have hmoment : strict.1.recovering.queue (.diagnostic fatal) =
        ⟨session.options, strict.1.state, strict.1.events.push (.diagnostic fatal)⟩ := by
      have hoptions : strict.1.options = plain.options := by
        rw [hstrict, options_takeAll, options_start]
      simp only [queue, recovering, hoptions]
      rfl
    rw [hmoment] at htake hrest
    refine ⟨hkind, ?_, before, step, rest, hsteps, ?_⟩
    · obtain ⟨later, hlater, _⟩ := Session.exists_events_takeAll
        ⟨session.options, strict.1.state, strict.1.events.push (.diagnostic fatal)⟩ rest
      refine ⟨later, ?_⟩
      rw [hlenient, hrest, hlater, Array.toList_push]
    · rw [hstart, hprior]
      exact ⟨rfl, hevents, htake, hlenient.trans hrest⟩

end StraightForth.Session
