import StraightForth.Proofs.History

/-!
# Delivery of events

A session writes into its queue and never reads it. So a run adds the same events to any queue,
and it makes no difference to anything else when the owner takes them. The main statement
follows calls of all kinds: what the owner has taken, and what waits to be taken, are together
the events of each run in their order, and leaving the taking out changes no other answer.
-/

namespace StraightForth

/-- Whether a call takes events. -/
def Call.isDrain : Call → Bool
  | .drain => true
  | .execute _ | .clear => false

theorem Call.isDrain_iff {call : Call} : call.isDrain = true ↔ call = .drain := by
  cases call <;> simp [isDrain]

namespace Session

section Queues

variable {session : Session}

/-- The session with some events waiting in front of its own. -/
def behind (earlier : Array Event) (session : Session) : Session :=
  { session with events := earlier ++ session.events }

@[simp] theorem toList_events_behind (earlier : Array Event) (session : Session) :
    (session.behind earlier).events.toList = earlier.toList ++ session.events.toList :=
  Array.toList_append

@[simp] theorem state_behind (earlier : Array Event) (session : Session) :
    (session.behind earlier).state = session.state := rfl

theorem queue_behind (earlier : Array Event) (session : Session) (event : Event) :
    (session.behind earlier).queue event = (session.queue event).behind earlier := by
  simp only [queue, behind, Array.push_append]

/-- A step does not look at the events that wait. -/
theorem take_behind (earlier : Array Event) (session : Session) (step : Step) :
    (session.behind earlier).take step =
      ((session.take step).1.behind earlier, (session.take step).2) := by
  simp only [take, state_behind]
  generalize session.state.execute step.command = effect
  obtain ⟨state, outcome⟩ := effect
  cases outcome with
  | done => rfl
  | printed text => exact congrArg (·, none) (queue_behind earlier { session with state } _)
  | abandoned fault =>
      simp only [show (session.behind earlier).options = session.options from rfl]
      split
      · rfl
      · exact congrArg (·, none) (queue_behind earlier { session with state } _)

/-- What no step of a session looks at, and every step leaves as it is, can be changed before a
run or after it. -/
theorem takeAll_of_take {change : Session → Session}
    (h : ∀ session step,
      (change session).take step = (change (session.take step).1, (session.take step).2))
    (session : Session) (steps : List Step) :
    (change session).takeAll steps =
      (change (session.takeAll steps).1, (session.takeAll steps).2) := by
  induction steps generalizing session with
  | nil => rfl
  | cons step rest ih =>
      rw [takeAll, takeAll, h]
      generalize session.take step = result
      obtain ⟨after, _ | fatal⟩ := result
      · exact ih after
      · rfl

/-- Neither does a run. -/
theorem takeAll_behind (earlier : Array Event) (session : Session) (steps : List Step) :
    (session.behind earlier).takeAll steps =
      ((session.takeAll steps).1.behind earlier, (session.takeAll steps).2) :=
  takeAll_of_take (take_behind earlier) session steps

theorem execute_behind (earlier : Array Event) (session : Session) (source : String) :
    (session.behind earlier).execute source =
      ((session.execute source).1.behind earlier, (session.execute source).2) := by
  have hstart : (session.behind earlier).start = session.start.behind earlier := by
    simp only [start, show (session.behind earlier).options = session.options from rfl]
    split <;> rfl
  exact (congrArg (·.takeAll (Step.ofSource source)) hstart).trans
    (takeAll_behind earlier session.start (Step.ofSource source))

end Queues

section Owners

/-- The same session with nothing in its queue. -/
def emptied (session : Session) : Session := { session with events := #[] }

@[simp] theorem behind_emptied (session : Session) :
    session.emptied.behind session.events = session := by
  simp [emptied, behind]

/-- A text is run as it is with nothing in the queue. -/
theorem execute_eq_behind (session : Session) (source : String) :
    session.execute source =
      ((session.emptied.execute source).1.behind session.events,
        (session.emptied.execute source).2) := by
  rw [← execute_behind, behind_emptied]

/-- The events that a call would queue in the same state with nothing in the queue. -/
def raises (session : Session) : Call → List Event
  | .execute source => (session.emptied.execute source).1.events.toList
  | .clear | .drain => []

/-- The events that the owner gets from a call. -/
def delivers (session : Session) : Call → List Event
  | .drain => session.drain.1
  | .execute _ | .clear => []

/-- The events of some calls in the order of the calls. -/
def raisesAll (session : Session) : List Call → List Event
  | [] => []
  | call :: rest => session.raises call ++ (session.call call).raisesAll rest

/-- All that the owner gets from some calls. -/
def deliversAll (session : Session) : List Call → List Event
  | [] => []
  | call :: rest => session.delivers call ++ (session.call call).deliversAll rest

/-- A call gives the owner the events in the queue, or adds its own events to them. -/
theorem delivers_append_call (session : Session) (call : Call) :
    session.delivers call ++ (session.call call).events.toList =
      session.events.toList ++ session.raises call := by
  cases call with
  | execute source =>
      calc
        (session.execute source).1.events.toList =
            ((session.emptied.execute source).1.behind session.events).events.toList := by
          rw [execute_eq_behind]
        _ = session.events.toList ++ (session.emptied.execute source).1.events.toList :=
          toList_events_behind _ _
  | clear => exact (List.append_nil _).symm
  | drain => rfl

/-- No event is lost on the way to the owner, and none comes twice or too early. -/
theorem deliversAll_append_queue (session : Session) (calls : List Call) :
    session.deliversAll calls ++ (calls.foldl call session).events.toList =
      session.events.toList ++ session.raisesAll calls := by
  induction calls generalizing session with
  | nil => exact (List.append_nil _).symm
  | cons first rest ih =>
      calc
        session.deliversAll (first :: rest) ++
              (rest.foldl call (session.call first)).events.toList =
            session.delivers first ++ ((session.call first).deliversAll rest ++
              (rest.foldl call (session.call first)).events.toList) := List.append_assoc _ _ _
        _ = session.delivers first ++ (session.call first).events.toList ++
              (session.call first).raisesAll rest := by
          rw [ih, List.append_assoc]
        _ = session.events.toList ++ session.raisesAll (first :: rest) := by
          rw [delivers_append_call, List.append_assoc]
          rfl

/-- What a call shows apart from events: the diagnostic that ended its text, if any, and the
stack and the variables after it. -/
def answer (session : Session) : Call → Option Diagnostic × State
  | .execute source => ((session.execute source).2, (session.execute source).1.state)
  | .clear => (none, session.clear.state)
  | .drain => (none, session.state)

/-- The answers to all calls but those that take events. -/
def answers (session : Session) : List Call → List (Option Diagnostic × State)
  | [] => []
  | call :: rest =>
      if call.isDrain then (session.call call).answers rest
      else session.answer call :: (session.call call).answers rest

theorem answers_cons {call : Call} (h : call.isDrain = false) (session : Session)
    (rest : List Call) :
    session.answers (call :: rest) = session.answer call :: (session.call call).answers rest :=
  if_neg (Bool.eq_false_iff.1 h)

/-- No call but the taking of events depends on the queue. -/
theorem call_behind {call : Call} (h : call.isDrain = false) (earlier : Array Event)
    (session : Session) :
    (session.behind earlier).call call = (session.call call).behind earlier ∧
      (session.behind earlier).answer call = session.answer call := by
  cases call with
  | execute source => simp only [Session.call, answer, execute_behind, state_behind, and_self]
  | clear => exact ⟨rfl, rfl⟩
  | drain => cases h

/-- Sessions that differ in their queues only answer alike. -/
theorem answers_behind (earlier : Array Event) (session : Session) (calls : List Call) :
    (session.behind earlier).answers calls = session.answers calls := by
  induction calls generalizing earlier session with
  | nil => rfl
  | cons first rest ih =>
      cases hdrain : first.isDrain with
      | true =>
          obtain rfl := Call.isDrain_iff.1 hdrain
          rfl
      | false =>
          obtain ⟨hcall, hanswer⟩ := call_behind hdrain earlier session
          rw [answers_cons hdrain, answers_cons hdrain, hcall, hanswer, ih]

/-- Taking events changes no answer. -/
theorem answers_filter (session : Session) (calls : List Call) :
    session.answers (calls.filter (!·.isDrain)) = session.answers calls := by
  induction calls generalizing session with
  | nil => rfl
  | cons first rest ih =>
      cases hdrain : first.isDrain with
      | true =>
          obtain rfl := Call.isDrain_iff.1 hdrain
          -- Without the drain its events stay in front of those of the later calls.
          calc
            session.answers (rest.filter (!·.isDrain)) = session.answers rest := ih session
            _ = session.emptied.answers rest := by
              rw [← answers_behind session.events session.emptied, behind_emptied]
      | false =>
          rw [List.filter_cons_of_pos (by simp [hdrain]), answers_cons hdrain,
            answers_cons hdrain, ih]

/-- Events are delivered once and in order, whatever a new session is made to do. All that was
taken from it, with all that still waits, are the events that each run raises by itself. And calls
that differ only in when events are taken get the same answers. -/
theorem events_delivered_once (options : Options) (calls : List Call) :
    (new options).deliversAll calls ++ (calls.foldl call (new options)).events.toList =
        (new options).raisesAll calls ∧
      ∀ others : List Call, others.filter (!·.isDrain) = calls.filter (!·.isDrain) →
        (new options).answers others = (new options).answers calls := by
  constructor
  · exact deliversAll_append_queue (new options) calls
  · intro others hsame
    calc
      (new options).answers others = (new options).answers (others.filter (!·.isDrain)) :=
        (answers_filter _ others).symm
      _ = (new options).answers (calls.filter (!·.isDrain)) := by rw [hsame]
      _ = (new options).answers calls := answers_filter _ calls

/-- A fatal fault keeps what was printed before it, and neither it nor a reset empties the queue. -/
example :
    (new {}).raisesAll [.execute "1 .", .clear, .execute "2 . x neg 3 .", .drain] =
      [.print "1\n", .print "2\n"] := by
  decide +kernel

end Owners

end Session

end StraightForth
