import StraightForth.State

/-!
# Sessions

A session runs one source text after another on the same stack and variables. What the texts
print and the faults of their commands are queued as events in program order, until the owner
of the session takes them. A fault abandons its command only, unless it is fatal: a fatal one
ends the text, and is returned instead of queued.
-/

namespace StraightForth

/-- How a session treats its texts. -/
structure Options where
  /-- Queue fatal faults too, and go on. -/
  recover : Bool := false
  /-- Keep the stack and the variables from one text to the next. -/
  persist : Bool := true
deriving DecidableEq

/-- What a session lets its owner know. -/
inductive Event
  | print (text : String)
  | diagnostic (report : Diagnostic)
deriving DecidableEq

/-- An interpreter with its state and the events that are not taken yet. -/
structure Session where
  options : Options
  state : State
  events : Array Event
deriving DecidableEq

namespace Session

/-- A session that has seen no text. -/
def new (options : Options) : Session := ⟨options, .empty, #[]⟩

/-- Forget the stack and the variables. The events stay. -/
def clear (session : Session) : Session := { session with state := .empty }

/-- Add an event to the end of the queue. -/
def queue (session : Session) (event : Event) : Session :=
  { session with events := session.events.push event }

/-- Take all events. -/
def drain (session : Session) : List Event × Session :=
  (session.events.toList, { session with events := #[] })

/-- Take one step. The result has the diagnostic that ends the text, if there is one. -/
def take (session : Session) (step : Step) : Session × Option Diagnostic :=
  let effect := session.state.execute step.command
  let after := { session with state := effect.1 }
  match effect.2 with
  | .done => (after, none)
  | .printed text => (after.queue (.print text), none)
  | .abandoned fault =>
      let report := fault.reportAt step.line step.column
      if report.isFatal && !session.options.recover then (after, some report)
      else (after.queue (.diagnostic report), none)

/-- Take steps until one of them ends the text. -/
def takeAll (session : Session) : List Step → Session × Option Diagnostic
  | [] => (session, none)
  | step :: rest =>
      match session.take step with
      | (after, none) => after.takeAll rest
      | (after, some fatal) => (after, some fatal)

/-- Run a source text. -/
def execute (session : Session) (source : String) : Session × Option Diagnostic :=
  (if session.options.persist then session else session.clear).takeAll (Step.ofSource source)

@[simp] theorem takeAll_nil (session : Session) : session.takeAll [] = (session, none) := rfl

/-- A new session has nothing to forget before its first text. -/
theorem execute_new (options : Options) (source : String) :
    (new options).execute source = (new options).takeAll (Step.ofSource source) := by
  unfold execute
  split <;> rfl

/-- Steps in a row are taken one part after the other, if the first part comes to its end. -/
theorem takeAll_append (session : Session) (first second : List Step) :
    session.takeAll (first ++ second) =
      match session.takeAll first with
      | (after, none) => after.takeAll second
      | (after, some fatal) => (after, some fatal) := by
  induction first generalizing session with
  | nil => rfl
  | cons step rest ih =>
      rw [List.cons_append, takeAll, takeAll]
      split
      · exact ih _
      · rfl

end Session

end StraightForth
