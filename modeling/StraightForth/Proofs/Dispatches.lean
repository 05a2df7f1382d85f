import StraightForth.Invocation
import StraightForth.Proofs.History
import Mathlib.Data.List.Infix

/-!
# The dispatches of a run

A run is told by its dispatches: which turns had their effect, and in which states. The main
statements are that the turns are those of the source up to the one that ends the run, and that
the events of the run are those of its dispatches, one after the other.
-/

namespace StraightForth

namespace Turn

/-- A turn has its token and what stands behind it on its line. -/
theorem suffix_of_mem {line : Nat} {tokens : List (Located Token)} {turn : Turn}
    (h : turn ∈ ofTokens line tokens) :
    turn.line = line ∧ turn.token :: turn.rest <:+ tokens := by
  fun_induction ofTokens line tokens with
  | case1 => cases h
  | case2 token =>
      obtain rfl := List.mem_singleton.1 h
      exact ⟨rfl, List.suffix_refl _⟩
  | case3 token next rest _ ih =>
      rcases List.mem_cons.1 h with rfl | h
      · exact ⟨rfl, List.suffix_refl _⟩
      · obtain ⟨hline, hsuffix⟩ := ih h
        exact ⟨hline, (hsuffix.trans (List.suffix_cons next rest)).trans (List.suffix_cons _ _)⟩
  | case4 token next rest _ ih =>
      rcases List.mem_cons.1 h with rfl | h
      · exact ⟨rfl, List.suffix_refl _⟩
      · obtain ⟨hline, hsuffix⟩ := ih h
        exact ⟨hline, hsuffix.trans (List.suffix_cons token _)⟩

/-- A turn of a source is one of its lines'. -/
theorem exists_line_of_mem {source : String} {turn : Turn} (h : turn ∈ ofSource source) :
    ∃ line ∈ Line.ofSource source, turn.line = line.number ∧
      turn.token :: turn.rest <:+ line.tokens := by
  obtain ⟨line, hline, hturn⟩ := List.mem_flatMap.1 h
  exact ⟨line, hline, suffix_of_mem hturn⟩

end Turn

namespace Dispatch

/-- The event of a dispatch. -/
def event? (d : Dispatch) : Option Event := d.turn.step.event? d.effect.2

/-- The diagnostic of a dispatch that was abandoned. -/
def report? (d : Dispatch) : Option Diagnostic := d.event?.bind Event.report?

end Dispatch

namespace Session

/-- The dispatches of some turns in their order, up to the one that ends the run. -/
def dispatches (session : Session) (turns : List Turn) : List Dispatch :=
  (session.record [] turns).reverse

theorem record_eq_append (session : Session) (log : Log) (turns : List Turn) :
    session.record log turns = session.record [] turns ++ log := by
  induction turns generalizing session log with
  | nil => rfl
  | cons turn rest ih =>
      rw [record, record]
      split
      · next after _ =>
          rw [ih after (⟨session.state, turn⟩ :: log), ih after [⟨session.state, turn⟩]]
          simp
      · rfl

@[simp] theorem dispatches_nil (session : Session) : session.dispatches [] = [] := rfl

theorem dispatches_cons (session : Session) (turn : Turn) (rest : List Turn) :
    session.dispatches (turn :: rest) = ⟨session.state, turn⟩ ::
      match session.take turn.step with
      | (after, none) => after.dispatches rest
      | (_, some _) => [] := by
  rw [dispatches, record]
  generalize session.take turn.step = result
  obtain ⟨after, _ | fatal⟩ := result
  · dsimp only
    rw [record_eq_append, List.reverse_append]
    rfl
  · rfl

/-- The turns come in the order of the source, and none is left out before the end of the run. -/
theorem turns_dispatches_prefix (session : Session) (turns : List Turn) :
    (session.dispatches turns).map Dispatch.turn <+: turns := by
  induction turns generalizing session with
  | nil => exact List.prefix_refl _
  | cons turn rest ih =>
      rw [dispatches_cons, List.map_cons]
      refine (List.prefix_cons_inj turn).2 ?_
      split
      · exact ih _
      · exact List.nil_prefix

/-- The events of a run are those of its dispatches, the last of which may end the run instead of
getting into the queue. -/
theorem exists_events_dispatches (session : Session) (turns : List Turn) :
    let run := session.takeAll (turns.map Turn.step)
    ∃ queued, run.1.events.toList = session.events.toList ++ queued ∧
      queued ++ (run.2.map Event.diagnostic).toList =
        (session.dispatches turns).filterMap Dispatch.event? := by
  induction turns generalizing session with
  | nil => exact ⟨[], (List.append_nil _).symm, rfl⟩
  | cons turn rest ih =>
      simp only [List.map_cons, takeAll, dispatches_cons, List.filterMap_cons]
      rcases session.take_cases turn.step with ⟨htake, _⟩ | ⟨report, hevent, _, _, htake⟩
      · obtain ⟨queued, hqueued, hlater⟩ := ih (session.take turn.step).1
        rw [htake] at hqueued hlater ⊢
        refine ⟨(Dispatch.event? ⟨session.state, turn⟩).toList ++ queued, ?_, ?_⟩
        · rw [hqueued, toList_queueAll, List.append_assoc]
          rfl
        · rw [List.append_assoc, hlater]
          cases Dispatch.event? ⟨session.state, turn⟩ <;> rfl
      · -- The report ends the run, so it is not queued and no later turn is dispatched.
        rw [htake]
        refine ⟨[], (List.append_nil _).symm, ?_⟩
        rw [show Dispatch.event? ⟨session.state, turn⟩ = _ from hevent]
        rfl

/-- So the diagnostics of a run, with the one that ends it, are those of its dispatches. -/
theorem exists_reports_dispatches (session : Session) (turns : List Turn) :
    let run := session.takeAll (turns.map Turn.step)
    ∃ queued, run.1.events.toList = session.events.toList ++ queued ∧
      queued.filterMap Event.report? ++ run.2.toList =
        (session.dispatches turns).filterMap Dispatch.report? := by
  obtain ⟨queued, hqueued, hevents⟩ := session.exists_events_dispatches turns
  refine ⟨queued, hqueued, ?_⟩
  have hreports := congrArg (List.filterMap Event.report?) hevents
  rw [List.filterMap_append, List.filterMap_filterMap] at hreports
  refine Eq.trans ?_ hreports
  congr 1
  cases (session.takeAll (turns.map Turn.step)).2 <;> rfl

end Session

end StraightForth
