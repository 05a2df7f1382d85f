import StraightForth.Proofs.Delivery

/-!
# Resets

A session that is cleared, or that keeps nothing from one text to the next, runs a text as a new
session would. Neither the texts before nor the way in which they ended can be told from the
run, and the events that still wait are neither lost nor looked at. The main statement says so of
a session with any history.
-/

namespace StraightForth

namespace Session

section Options

/-- The same session, keeping its stack and its variables between texts or not. -/
def persisting (persist : Bool) (session : Session) : Session :=
  { session with options := { session.options with persist := persist } }

/-- Whether anything is kept for the next text makes no difference to a step. -/
theorem take_persisting (persist : Bool) (session : Session) (step : Step) :
    (session.persisting persist).take step =
      ((session.take step).1.persisting persist, (session.take step).2) := by
  simp only [take, show (session.persisting persist).state = session.state from rfl]
  generalize session.state.execute step.command = effect
  obtain ⟨state, outcome⟩ := effect
  cases outcome with
  | done => rfl
  | printed text => rfl
  | abandoned fault =>
      simp only [show (session.persisting persist).options.recover =
        session.options.recover from rfl]
      split <;> rfl

/-- Neither does it to a run. -/
theorem takeAll_persisting (persist : Bool) (session : Session) (steps : List Step) :
    (session.persisting persist).takeAll steps =
      ((session.takeAll steps).1.persisting persist, (session.takeAll steps).2) :=
  takeAll_of_take (take_persisting persist) session steps

/-- No call changes the options of a session. -/
theorem options_call (session : Session) (call : Call) :
    (session.call call).options = session.options := by
  cases call with
  | execute source =>
      calc
        (session.execute source).1.options = session.start.options := options_takeAll _ _
        _ = session.options := options_start session
  | clear => rfl
  | drain => rfl

theorem options_calls (session : Session) (calls : List Call) :
    (calls.foldl call session).options = session.options := by
  induction calls generalizing session with
  | nil => rfl
  | cons first rest ih => exact (ih (session.call first)).trans (options_call session first)

end Options

/-- A run does what another one does, with some events in front of its own. -/
structure Repeats (waiting : Array Event) (run other : Session × Option Diagnostic) : Prop where
  result : run.2 = other.2
  state : run.1.state = other.1.state
  events : run.1.events.toList = waiting.toList ++ other.1.events.toList

/-- A new session has nothing to forget. -/
theorem start_new (options : Options) : (new options).start = new options := by
  unfold start
  split <;> rfl

/-- A session that starts a text with nothing is a new one but for the events that wait. -/
theorem start_eq_behind {session : Session} (h : session.start.state = .empty) (persist : Bool) :
    session.start =
      ((new ⟨session.options.recover, persist⟩).persisting session.options.persist).behind
        session.events := by
  have hoptions := session.options_start
  have hevents := session.events_start
  generalize session.start = started at h hoptions hevents
  obtain ⟨options, state, events⟩ := started
  obtain rfl : options = session.options := hoptions
  obtain rfl : state = .empty := h
  obtain rfl : events = session.events := hevents
  simp [behind, persisting, new]

/-- So it does with the text what a new session does. -/
theorem repeats_of_start {session : Session} (h : session.start.state = .empty) (persist : Bool)
    (source : String) :
    Repeats session.events (session.execute source)
      ((new ⟨session.options.recover, persist⟩).execute source) := by
  have hrun : session.execute source = session.start.takeAll (Step.ofSource source) := rfl
  rw [hrun, execute_new, start_eq_behind h persist, takeAll_behind, takeAll_persisting]
  generalize takeAll _ (Step.ofSource source) = anew
  exact ⟨rfl, rfl, toList_events_behind _ _⟩

/-- A reset leaves no trace of the past, whatever a session was made to do before. If it keeps
nothing between texts, it runs every text as a new session does that treats fatal faults in the
same way; and so does any session that has just been cleared. The events that wait stay in front
of those of the run. -/
theorem execute_after_reset (options : Options) (calls : List Call) (source : String)
    (persist : Bool) :
    let session := calls.foldl call (new options)
    let anew := (new ⟨options.recover, persist⟩).execute source
    (options.persist = false → Repeats session.events (session.execute source) anew) ∧
      Repeats session.events (session.clear.execute source) anew := by
  intro session anew
  have hoptions : session.options = options := options_calls (new options) calls
  have hanew : anew = (new ⟨session.options.recover, persist⟩).execute source := by
    rw [hoptions]
  rw [hanew]
  constructor
  · intro hpersist
    have hstart : session.start.state = .empty := by
      rw [start, hoptions, hpersist]
      rfl
    exact repeats_of_start hstart persist source
  · have hstart : session.clear.start.state = .empty := by
      unfold start
      split <;> rfl
    exact repeats_of_start hstart persist source

/-- The text that is ended leaves a name, a variable and a print behind, and only the print is
seen again. -/
example :
    let calls := [Call.execute "variable x 1 . y 2 x +", .clear, .execute "x @ .s"]
    (calls.foldl call (new {})).events.toList =
      [.print "1\n", .diagnostic ⟨.undefinedVariable, some 1, ⟨2, 3⟩, "x"⟩,
        .print "[Bottom -> Top] []\n"] := by
  decide +kernel

end Session

end StraightForth
