import StraightForth.Proofs.Contracts

/-!
# What lies underneath

A program that finds enough operands for each of its words never gets to the operands below them.
So it may be run on top of any other stack. The main statement is that the stack underneath stays
as it is and makes no difference to the run, whether commands are abandoned in it or a fatal fault
ends it. The dump of the whole stack is the one word that shows what lies underneath.
-/

namespace StraightForth

namespace Stack

variable {α : Type} {s : Stack α}

/-- One stack on top of another. -/
def onto (s base : Stack α) : Stack α := ⟨s.items ++ base.items⟩

@[simp] theorem bottomUp_onto (s base : Stack α) :
    (s.onto base).bottomUp = base.bottomUp ++ s.bottomUp := by
  simp [onto, bottomUp]

theorem pushAll_onto (s base : Stack α) (items : List α) :
    (s.onto base).pushAll items = (s.pushAll items).onto base := by
  have hitems : ((s.onto base).pushAll items).items = ((s.pushAll items).onto base).items := by
    simp [onto, items_pushAll]
  exact congrArg Stack.mk hitems

theorem peek?_onto {depth : Nat} (h : depth < s.size) (base : Stack α) :
    (s.onto base).peek? depth = s.peek? depth :=
  List.getElem?_append_left h

/-- If there is an item, it comes off from the upper stack. -/
theorem exists_pop_onto (h : 1 ≤ s.size) :
    ∃ top rest, s.pop = .ok (top, rest) ∧
      ∀ base, (s.onto base).pop = .ok (top, rest.onto base) := by
  obtain ⟨_ | ⟨top, rest⟩⟩ := s
  · exact absurd h (Nat.not_succ_le_zero 0)
  · exact ⟨top, ⟨rest⟩, rfl, fun base => rfl⟩

/-- If there are two items, both come off from the upper stack. -/
theorem exists_popTwo_onto (h : 2 ≤ s.size) :
    ∃ operands rest, s.popTwo = .ok (operands, rest) ∧
      ∀ base, (s.onto base).popTwo = .ok (operands, rest.onto base) := by
  obtain ⟨_ | ⟨top, _ | ⟨second, rest⟩⟩⟩ := s
  · exact absurd h (Nat.not_succ_le_zero 1)
  · exact absurd h (Nat.not_succ_le_self 1)
  · exact ⟨(second, top), ⟨rest⟩, rfl, fun base => rfl⟩

end Stack

/-- The number of operands that a token works on when it has its turn. Only words work on any. -/
def Token.arity : Token → Nat
  | .word found => found.arity
  | .literal _ | .ident _ => 0

/-- The token finds as many operands as it works on. -/
def Dispatch.IsSupplied (d : Dispatch) : Prop :=
  d.turn.token.item.arity ≤ d.found.stack.size

instance (d : Dispatch) : Decidable d.IsSupplied :=
  inferInstanceAs (Decidable (_ ≤ _))

namespace State

/-- The state with its stack on top of another. -/
def onto (s : State) (base : Stack Operand) : State :=
  { s with stack := s.stack.onto base }

/-- The effect with the stack that it leaves on top of another. -/
def effectOnto (base : Stack Operand) (effect : State × Outcome) : State × Outcome :=
  (effect.1.onto base, effect.2)

section Commands

variable {s : State} (base : Stack Operand)

theorem replaceTwo_onto (h : 2 ≤ s.stack.size)
    (f : Operand → Operand → Except Fault (List Operand)) :
    (s.onto base).replaceTwo f = effectOnto base (s.replaceTwo f) := by
  obtain ⟨⟨lhs, rhs⟩, rest, hpop, hpop'⟩ := Stack.exists_popTwo_onto h
  simp only [replaceTwo, onto, hpop, hpop' base]
  cases f lhs rhs with
  | ok results => simp only [Stack.pushAll_onto, effectOnto, onto]
  | error fault => rfl

theorem store_onto (h : 2 ≤ s.stack.size) :
    (s.onto base).store = effectOnto base s.store := by
  obtain ⟨⟨value, target⟩, rest, hpop, hpop'⟩ := Stack.exists_popTwo_onto h
  simp only [store, onto, hpop, hpop' base]
  cases s.vars.assign target value <;> rfl

theorem fetch_onto (h : 1 ≤ s.stack.size) :
    (s.onto base).fetch = effectOnto base s.fetch := by
  obtain ⟨target, rest, hpop, hpop'⟩ := Stack.exists_pop_onto h
  simp only [fetch, onto, hpop, hpop' base]
  cases s.vars.read target <;> rfl

theorem dup_onto (h : 1 ≤ s.stack.size) : (s.onto base).dup = effectOnto base s.dup := by
  simp only [dup, onto, Stack.peek?_onto h base]
  cases s.stack.peek? 0 <;> rfl

theorem drop_onto (h : 1 ≤ s.stack.size) : (s.onto base).drop = effectOnto base s.drop := by
  obtain ⟨top, rest, hpop, hpop'⟩ := Stack.exists_pop_onto h
  simp only [drop, onto, hpop, hpop' base]
  rfl

theorem copySecond_onto (h : 2 ≤ s.stack.size) :
    (s.onto base).copySecond = effectOnto base s.copySecond := by
  simp only [copySecond, onto, Stack.peek?_onto h base]
  cases s.stack.peek? 1 <;> rfl

theorem negate_onto (h : 1 ≤ s.stack.size) :
    (s.onto base).negate = effectOnto base s.negate := by
  obtain ⟨operand, rest, hpop, hpop'⟩ := Stack.exists_pop_onto h
  simp only [negate, onto, hpop, hpop' base]
  cases operand.negate <;> rfl

theorem print_onto (h : 1 ≤ s.stack.size) :
    (s.onto base).print = effectOnto base s.print := by
  obtain ⟨operand, rest, hpop, hpop'⟩ := Stack.exists_pop_onto h
  simp only [print, onto, hpop, hpop' base]
  rfl

/-- A word with enough operands does the same on top of another stack, unless it shows the whole
stack. -/
theorem perform_onto {word : Word} {primitive : Primitive}
    (h : word.primitive? = some primitive) (hdump : word ≠ .dotS)
    (henough : word.arity ≤ s.stack.size) :
    (s.onto base).perform primitive = effectOnto base (s.perform primitive) := by
  cases word with
  | declare => cases h
  | dotS => exact (hdump rfl).elim
  | plus | minus | star | mod | swap | nip | tuck =>
      cases h
      exact replaceTwo_onto base henough _
  | bang | store =>
      cases h
      exact store_onto base henough
  | atSign | fetch =>
      cases h
      exact fetch_onto base henough
  | dup =>
      cases h
      exact dup_onto base henough
  | drop =>
      cases h
      exact drop_onto base henough
  | copySecond =>
      cases h
      exact copySecond_onto base henough
  | neg =>
      cases h
      exact negate_onto base henough
  | dot =>
      cases h
      exact print_onto base henough

/-- So does any command in its turn. -/
theorem execute_turn_onto {turn : Turn} (hdump : turn.token.item ≠ .word .dotS)
    (henough : turn.token.item.arity ≤ s.stack.size) :
    (s.onto base).execute turn.command = effectOnto base (s.execute turn.command) := by
  cases hcommand : turn.command with
  | push operand => rfl
  | declare name => rfl
  | declareNothing => rfl
  | declareReserved token column => rfl
  | perform primitive =>
      obtain ⟨word, hitem, hprimitive⟩ := Turn.command_eq_perform_iff.1 hcommand
      rw [hitem] at hdump henough
      apply perform_onto base hprimitive _ henough
      rintro rfl
      exact hdump rfl

end Commands

end State

namespace Session

/-- The session with its stack on top of another. -/
def onto (session : Session) (base : Stack Operand) : Session :=
  { session with state := session.state.onto base }

section

variable {session : Session} (base : Stack Operand)

theorem take_onto {step : Step}
    (h : (session.state.onto base).execute step.command =
      State.effectOnto base (session.state.execute step.command)) :
    (session.onto base).take step =
      ((session.take step).1.onto base, (session.take step).2) := by
  simp only [take, onto, h, State.effectOnto]
  cases (session.state.execute step.command).2 with
  | done => rfl
  | printed text => rfl
  | abandoned fault =>
      dsimp only
      split <;> rfl

/-- What lies underneath stays there while turns are taken, as long as each finds enough
operands. -/
theorem takeAll_onto {turns : List Turn} (hdump : ∀ turn ∈ turns, turn.token.item ≠ .word .dotS)
    (henough : ∀ d ∈ session.dispatches turns, d.IsSupplied) :
    (session.onto base).takeAll (turns.map Turn.step) =
      ((session.takeAll (turns.map Turn.step)).1.onto base,
        (session.takeAll (turns.map Turn.step)).2) := by
  induction turns generalizing session with
  | nil => rfl
  | cons turn rest ih =>
      rw [dispatches_cons] at henough
      have hfirst : (session.onto base).take turn.step =
          ((session.take turn.step).1.onto base, (session.take turn.step).2) := by
        apply take_onto
        exact State.execute_turn_onto base (hdump turn List.mem_cons_self)
          (henough _ List.mem_cons_self)
      rw [List.map_cons, takeAll, takeAll, hfirst]
      have hlater := fun d hd => henough d (List.mem_cons_of_mem _ hd)
      generalize session.take turn.step = result at hlater
      obtain ⟨after, _ | fatal⟩ := result
      · apply ih _ hlater
        exact fun later hmem => hdump later (List.mem_cons_of_mem turn hmem)
      · rfl

end

/-- What lies underneath makes no difference. Let a session run a text that does not dump the
stack, and let each word in it find as many operands as it works on. On top of another stack the
text runs with the same result, the same events and the same variables, and in the end the stack
that it leaves lies on top of the other one, of which nothing is gone. -/
theorem execute_onto {source : String}
    (hdump : ∀ line ∈ Line.ofSource source, ∀ token ∈ line.tokens, token.item ≠ .word .dotS)
    (recover : Bool) (state : State) (events : Array Event)
    (henough : ∀ d ∈ dispatches ⟨⟨recover, true⟩, state, events⟩ (Turn.ofSource source),
      d.IsSupplied)
    (base : Stack Operand) :
    let run := (⟨⟨recover, true⟩, state, events⟩ : Session).execute source
    let run' := (⟨⟨recover, true⟩, ⟨state.stack.onto base, state.vars⟩, events⟩ :
      Session).execute source
    run'.2 = run.2 ∧ run'.1.events = run.1.events ∧
      run'.1.state.vars = run.1.state.vars ∧
      run'.1.state.stack.bottomUp = base.bottomUp ++ run.1.state.stack.bottomUp := by
  intro run run'
  let session : Session := ⟨⟨recover, true⟩, state, events⟩
  have hturns : ∀ turn ∈ Turn.ofSource source, turn.token.item ≠ .word .dotS := by
    intro turn hturn
    obtain ⟨line, hline, _, hsuffix⟩ := Turn.exists_line_of_mem hturn
    exact hdump line hline turn.token (hsuffix.subset List.mem_cons_self)
  have hwhole : run' = (run.1.onto base, run.2) := by
    calc
      run' = (session.onto base).takeAll ((Turn.ofSource source).map Turn.step) := by
        rw [Turn.ofSource_map_step]
        rfl
      _ = ((session.takeAll ((Turn.ofSource source).map Turn.step)).1.onto base,
            (session.takeAll ((Turn.ofSource source).map Turn.step)).2) :=
        takeAll_onto base hturns henough
      _ = (run.1.onto base, run.2) := by
        rw [Turn.ofSource_map_step]
        rfl
  rw [hwhole]
  clear_value run
  exact ⟨rfl, rfl, rfl, Stack.bottomUp_onto _ _⟩

/-- An undeclared name under a store, one under a fetch and one among integers: what is taken off
for them comes from the upper stack each time, and the fatal fault leaves both stacks. -/
theorem execute_onto_abandoned :
    let source := "dup x ! 1 y store z @ 2 swap -1 z + drop"
    let state : State := ⟨⟨[.integer 5]⟩, .empty⟩
    let base : Stack Operand := ⟨[.name "z", .integer 9]⟩
    let run := (⟨⟨false, true⟩, state, #[]⟩ : Session).execute source
    let run' := (⟨⟨false, true⟩, ⟨state.stack.onto base, state.vars⟩, #[]⟩ :
      Session).execute source
    (∀ line ∈ Line.ofSource source, ∀ token ∈ line.tokens, token.item ≠ .word .dotS) ∧
      (∀ d ∈ dispatches ⟨⟨false, true⟩, state, #[]⟩ (Turn.ofSource source), d.IsSupplied) ∧
      run'.2 = run.2 ∧
      run'.1.state.stack.bottomUp = base.bottomUp ++ run.1.state.stack.bottomUp := by
  intro source state base run run'
  have hdump : ∀ line ∈ Line.ofSource source, ∀ token ∈ line.tokens,
      token.item ≠ .word .dotS := by
    decide +kernel
  have henough : ∀ d ∈ dispatches ⟨⟨false, true⟩, state, #[]⟩ (Turn.ofSource source),
      d.IsSupplied := by
    decide +kernel
  obtain ⟨hresult, _, _, hstack⟩ := execute_onto hdump false state #[] henough base
  exact ⟨hdump, henough, hresult, hstack⟩

end Session

end StraightForth
