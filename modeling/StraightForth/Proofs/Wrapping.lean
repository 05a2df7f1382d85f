import StraightForth.Proofs.Dispatches
import StraightForth.Proofs.Unbounded

/-!
# When to wrap around

Sums, differences, products and opposites may be wrapped around at once or at the end, and it
makes no difference to what a program does, since integers are only moved otherwise. The main
statement is that a text without a remainder can be run on unbounded integers: what is left and
what is shown are their residues of 32 bits.

## Implementation notes

A map into the integers of 32 bits that respects the operations is read through every command,
and so through every run. The identity respects all of them, the remainder too, and tells that
runs on integers of 32 bits are those of a session.
-/

namespace StraightForth

namespace Arithmetic

variable {α : Type}

/-- A map into the integers of 32 bits respects the operations but the remainder. -/
structure Reads (ops : Arithmetic α) (f : α → Int32) : Prop where
  literal : ∀ n, f (ops.literal n) = n
  add : ∀ n m, f (ops.add n m) = f n + f m
  subtract : ∀ n m, f (ops.subtract n m) = f n - f m
  multiply : ∀ n m, f (ops.multiply n m) = f n * f m
  negate : ∀ n, f (ops.negate n) = -f n

/-- The map respects the remainder too. -/
def ReadsRemainder (ops : Arithmetic α) (f : α → Int32) : Prop :=
  ∀ n m, f (ops.remainder n m) = Operand.remainder (f n) (f m)

theorem wrapping_reads : wrapping.Reads id :=
  ⟨fun _ => rfl, fun _ _ => rfl, fun _ _ => rfl, fun _ _ => rfl, fun _ => rfl⟩

theorem wrapping_readsRemainder : wrapping.ReadsRemainder id := fun _ _ => rfl

/-- The residue of an integer is the one of 32 bits that differs from it by a multiple of their
number. Residues of sums, differences, products and opposites are those of the residues. -/
theorem unbounded_reads : unbounded.Reads Int32.ofInt where
  literal := Int32.ofInt_toInt
  add := Int32.ofInt_add
  subtract := Int32.ofInt_sub
  multiply := Int32.ofInt_mul
  negate := Int32.ofInt_neg

end Arithmetic

namespace Over

variable {α : Type} {ops : Arithmetic α} {f : α → Int32}

/-- What a session shows of an effect. -/
def readEffect (f : α → Int32) (effect : State α × Outcome α) :
    StraightForth.State × StraightForth.Outcome :=
  (effect.1.read f, effect.2.read f)

namespace State

theorem names_read (s : State α) : (s.read f).vars.names = s.names := by
  simp only [read, Variables.names, names, List.map_map]
  rfl

theorem value?_read (s : State α) (x : String) :
    (s.read f).vars.value? x = (s.vars.lookup x).map f := by
  simp only [read, Variables.value?]
  induction s.vars with
  | nil => rfl
  | cons entry entries ih =>
      rw [List.map_cons, List.lookup_cons, List.lookup_cons]
      cases x == entry.1 with
      | true => rfl
      | false => exact ih

theorem read_declare (hf : ops.Reads f) (s : State α) (x : String) :
    (s.declare ops x).read f = { s.read f with vars := (s.read f).vars.declare x } := by
  have hnames := (s.read f).vars.isDeclared_iff x
  rw [names_read] at hnames
  simp only [declare, Variables.declare, hnames]
  split
  · rfl
  · simp [read, hf.literal]

/-- Arrangements of integers that correspond give operands that do. -/
theorem read_arrange {results : α → α → List α} {results' : Int32 → Int32 → List Int32}
    (h : ∀ left right, results' (f left) (f right) = (results left right).map f) (s : State α) :
    (s.read f).arrange results' = readEffect f (s.arrange results) := by
  obtain ⟨items, vars⟩ := s
  simp only [read]
  rw [StraightForth.State.arrange_eq]
  rcases items with _ | ⟨top, _ | ⟨second, rest⟩⟩
  · rfl
  · cases top <;> rfl
  · cases top with
    | name x => cases second <;> rfl
    | integer right =>
        cases second with
        | name x => rfl
        | integer left =>
            have hstack : (⟨rest.map (Operand.read f)⟩ : Stack StraightForth.Operand).pushAll
                ((results' (f left) (f right)).map .integer) =
                ⟨((results left right).reverse.map Operand.integer ++ rest).map
                  (Operand.read f)⟩ := by
              have hitems := Stack.items_pushAll ⟨rest.map (Operand.read f)⟩
                ((results' (f left) (f right)).map .integer)
              refine (congrArg Stack.mk hitems).trans ?_
              simp [h, Operand.read, Function.comp_def]
            simp only [List.map_cons, Operand.read, hstack]
            rfl

/-- A new value for a variable is read where it stands. -/
theorem overwrite_read (vars : List (String × α)) (x : String) (n : α) :
    Variables.overwrite ⟨vars.map fun entry => (entry.1, f entry.2)⟩ x (f n) =
      ⟨(vars.map fun entry => if entry.1 = x then (x, n) else entry).map fun entry =>
        (entry.1, f entry.2)⟩ := by
  rw [Variables.overwrite, List.map_map, List.map_map]
  congr 2
  funext entry
  by_cases hx : entry.1 = x
  · simp [hx]
  · simp [hx]

theorem read_store (s : State α) : (s.read f).store = readEffect f s.store := by
  obtain ⟨items, vars⟩ := s
  have hnames : Variables.names ⟨vars.map fun entry => (entry.1, f entry.2)⟩ =
      vars.map Prod.fst := names_read ⟨items, vars⟩
  rcases items with _ | ⟨target, _ | ⟨value, rest⟩⟩
  · rfl
  · cases target <;> rfl
  · simp only [StraightForth.State.store, read, List.map_cons, Stack.popTwo, Variables.assign_eq]
    cases target with
    | integer n => rfl
    | name x =>
        by_cases hx : x ∈ vars.map Prod.fst
        · cases value with
          | integer n =>
              simp only [Operand.read, hnames, store, names, hx, if_true, overwrite_read]
              rfl
          | name y =>
              simp only [Operand.read, hnames, store, names, hx, if_true]
              rfl
        · cases value <;> simp only [Operand.read, hnames, store, names, hx, if_false] <;> rfl

theorem read_fetch (s : State α) : (s.read f).fetch = readEffect f s.fetch := by
  obtain ⟨items, vars⟩ := s
  rcases items with _ | ⟨top, rest⟩
  · rfl
  · cases top with
    | integer n => rfl
    | name x =>
        rw [StraightForth.State.fetch_eq_of_name rfl, value?_read]
        simp only [fetch]
        cases vars.lookup x <;> rfl

/-- A map that respects the operations is read through every primitive. -/
theorem read_perform (hf : ops.Reads f) (s : State α) {primitive : Primitive}
    (hmodulo : primitive = .modulo → ops.ReadsRemainder f) :
    (s.read f).perform primitive = readEffect f (s.perform ops primitive) := by
  cases harrangement : primitive.arrangement? with
  | some results =>
      rw [StraightForth.State.perform_eq_arrange _ harrangement]
      cases primitive <;> cases harrangement
      case some.add.refl => exact read_arrange (fun left right => by simp [hf.add]) s
      case some.subtract.refl => exact read_arrange (fun left right => by simp [hf.subtract]) s
      case some.multiply.refl => exact read_arrange (fun left right => by simp [hf.multiply]) s
      case some.modulo.refl =>
        exact read_arrange (fun left right => by simp [hmodulo rfl left right]) s
      case some.swap.refl | some.nip.refl | some.tuck.refl => exact read_arrange (fun _ _ => rfl) s
  | none =>
      obtain ⟨items, vars⟩ := s
      cases primitive with
      | store => exact read_store _
      | fetch => exact read_fetch _
      | dup | drop | print => cases items <;> rfl
      | copySecond => rcases items with _ | ⟨top, _ | ⟨second, rest⟩⟩ <;> rfl
      | negate =>
          rcases items with _ | ⟨top, rest⟩
          · rfl
          · cases top with
            | name x => rfl
            | integer n =>
                have hnegate := hf.negate n
                simp only [perform, negate, readEffect, read, List.map_cons, Operand.read, hnegate]
                rfl
      | printStack =>
          simp only [perform, readEffect, read, Outcome.read, StraightForth.State.perform,
            StraightForth.State.printStack, Stack.text, Stack.bottomUp, List.map_reverse,
            List.map_map]
          rfl
      | _ => cases harrangement

/-- A map that respects the operations is read through every command. -/
theorem read_execute (hf : ops.Reads f) (s : State α) {command : Command}
    (hmodulo : command = .perform .modulo → ops.ReadsRemainder f) :
    (s.read f).execute command = readEffect f (s.execute ops command) := by
  cases command with
  | push operand =>
      cases operand with
      | integer n =>
          simp only [execute, readEffect, read, List.map_cons, Operand.read, hf.literal]
          rfl
      | name x => rfl
  | perform primitive => exact s.read_perform hf fun h => hmodulo (congrArg Command.perform h)
  | declare x =>
      rw [execute, readEffect, read_declare hf]
      rfl
  | declareNothing => rfl
  | declareReserved token column => rfl

end State

theorem Fault.isFatal_read (fault : Fault α) (line : Nat) (column : Span) :
    ((fault.read f).reportAt line column).isFatal = fault.isFatal := by
  rw [StraightForth.Fault.isFatal_reportAt]
  cases fault with
  | notAName value => rfl
  | other fault => cases fault <;> rfl

/-- An event in front of a run is queued before those of the run. -/
theorem Run.read_after (run : Run α) (event : Event α) (session : Session) :
    (run.after event).read f session = run.read f (session.queue (event.read f)) := by
  simp [Run.after, Run.read, Session.queueAll, Session.queue]

/-- Steps that find a state to be read leave one to be read, with all that they show. -/
theorem read_takeAll (hf : ops.Reads f) {steps : List Step}
    (hmodulo : ∀ step ∈ steps, step.command = .perform .modulo → ops.ReadsRemainder f)
    (s : State α) {session : Session} (hstate : session.state = s.read f) :
    session.takeAll steps = (takeAll ops session.options.recover s steps).read f session := by
  induction steps generalizing session s with
  | nil =>
      simp [takeAll, Run.read, Session.queueAll, ← hstate]
  | cons step rest ih =>
      have hstep := s.read_execute hf (hmodulo step List.mem_cons_self)
      have hrest := fun later hlater => hmodulo later (List.mem_cons_of_mem step hlater)
      rw [Session.takeAll, Session.take, hstate, hstep, takeAll]
      simp only [readEffect]
      generalize s.execute ops step.command = effect
      obtain ⟨after, outcome⟩ := effect
      cases outcome with
      | done => exact ih hrest after rfl
      | printed operand =>
          simp only [Run.read_after]
          exact ih hrest after rfl
      | dumped items =>
          simp only [Run.read_after]
          exact ih hrest after rfl
      | abandoned fault =>
          simp only [Outcome.read, Fault.isFatal_read]
          cases fault.isFatal && !session.options.recover with
          | true => simp [Run.read, Session.queueAll, Report.read]
          | false =>
              simp only [Bool.false_eq_true, if_false, Run.read_after]
              exact ih hrest after rfl

/-- Texts are run on other integers as they are in a session. -/
theorem read_executeText (hf : ops.Reads f) {source : String}
    (hmodulo : ∀ step ∈ Step.ofSource source,
      step.command = .perform .modulo → ops.ReadsRemainder f)
    (s : State α) {session : Session} (hstate : session.state = s.read f) :
    session.execute source = (execute ops session.options s source).read f session := by
  rw [Session.execute, execute]
  cases session.options.persist with
  | true => exact read_takeAll hf hmodulo s hstate
  | false => exact read_takeAll hf hmodulo .empty (show session.clear.state = _ from rfl)

/-- A session's state on other integers is read as itself, if every single integer is. -/
theorem State.read_ofState {g : Int32 → α} (h : ∀ n, f (g n) = n) (s : StraightForth.State) :
    (ofState g s).read f = s := by
  obtain ⟨⟨items⟩, ⟨entries⟩⟩ := s
  have hitems : items.map (Operand.read f ∘ Operand.ofOperand g) = items := by
    apply List.map_id''
    intro operand
    cases operand with
    | integer n => exact congrArg StraightForth.Operand.integer (h n)
    | name x => rfl
  have hentries : (entries.map fun entry => (entry.1, g entry.2)).map
      (fun entry => (entry.1, f entry.2)) = entries := by
    rw [List.map_map]
    apply List.map_id''
    intro entry
    rw [Function.comp_apply, h]
  simp only [read, ofState, List.map_map, hitems] at hentries ⊢
  rw [hentries]

end Over

/-- A step takes a remainder only where the word for it stands. -/
theorem Step.exists_token_of_modulo {source : String} {step : Step}
    (hstep : step ∈ ofSource source) (h : step.command = .perform .modulo) :
    ∃ line ∈ Line.ofSource source, ∃ token ∈ line.tokens, token.item = .word .mod := by
  rw [← Turn.ofSource_map_step] at hstep
  obtain ⟨turn, hturn, rfl⟩ := List.mem_map.1 hstep
  obtain ⟨line, hline, _, hsuffix⟩ := Turn.exists_line_of_mem hturn
  obtain ⟨word, hitem, hword⟩ := Turn.command_eq_perform_iff.1 h
  refine ⟨line, hline, turn.token, hsuffix.subset List.mem_cons_self, ?_⟩
  cases word <;> cases hword
  exact hitem

namespace Session

/-- On integers of 32 bits, runs on other integers are the runs of a session. -/
theorem execute_eq_wrapping (session : Session) (source : String) :
    session.execute source =
      (Over.execute .wrapping session.options (.ofState id session.state) source).read id
        session :=
  Over.read_executeText Arithmetic.wrapping_reads
    (fun _ _ _ => Arithmetic.wrapping_readsRemainder) _
    (Over.State.read_ofState (fun _ => rfl) session.state).symm

/-- It makes no difference whether integers wrap around at once or at the end. A text without
a remainder is run on unbounded integers, from the same state and under the same options. What
a session comes to is the state of that run, its events and what ended it, with every integer
replaced by its residue of 32 bits. -/
theorem execute_eq_residues {source : String}
    (h : ∀ line ∈ Line.ofSource source, ∀ token ∈ line.tokens, token.item ≠ .word .mod)
    (session : Session) :
    session.execute source =
      (Over.execute .unbounded session.options (.ofState Int32.toInt session.state) source).read
        Int32.ofInt session := by
  apply Over.read_executeText Arithmetic.unbounded_reads
  · intro step hstep hmodulo
    obtain ⟨line, hline, token, htoken, hitem⟩ := Step.exists_token_of_modulo hstep hmodulo
    exact (h line hline token htoken hitem).elim
  · exact (Over.State.read_ofState Int32.ofInt_toInt session.state).symm

/-- Here a sum, what is stored, a square and an integer in the place of a name are all too
large. -/
theorem execute_eq_residues_overflow :
    let source := "variable x 2147483647 1 + x ! x @ 3 * dup * . x @ 5 x @ @ neg .s"
    (∀ line ∈ Line.ofSource source, ∀ token ∈ line.tokens, token.item ≠ .word .mod) ∧
      (Session.new {}).execute source =
        (Over.execute .unbounded {} .empty source).read Int32.ofInt (Session.new {}) := by
  intro source
  have h : ∀ line ∈ Line.ofSource source, ∀ token ∈ line.tokens, token.item ≠ .word .mod := by
    decide +kernel
  exact ⟨h, execute_eq_residues h (Session.new {})⟩

/-- A remainder tells an integer from its residue. -/
example :
    let source := "2147483647 1 + 10 mod ."
    ((Session.new {}).execute source).1.events = #[.print "-8\n"] ∧
      (Over.execute .unbounded {} .empty source).events = [.print (.integer 8)] := by
  decide +kernel

end Session

end StraightForth
