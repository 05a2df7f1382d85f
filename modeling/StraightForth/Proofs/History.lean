import StraightForth.Proofs.Description
import StraightForth.Proofs.Steps

/-!
# What variables remember

A log keeps, for every token in its turn, the state that the token found. It starts anew where
the session does: when it is cleared, and before each text if nothing persists. The main
statement is that a variable exists exactly when its declaration is in the log, and that its
value is the integer of its last successful store there, or zero without one.

## Implementation notes

The log has its latest entry in front, so that the entries behind one are all that happened
before it. Whether a store is successful can then be read off the log alone: the entry has the
operands, and the declaration is behind it.
-/

namespace StraightForth

section Turns

/-- A token in its turn, and the tokens that are still to come on its line. -/
structure Turn where
  line : Nat
  token : Located Token
  rest : List (Located Token)

namespace Turn

/-- The tokens of a line that get their turn. A declaring word uses up the token behind it. -/
def ofTokens (line : Nat) : List (Located Token) → List Turn
  | [] => []
  | [token] => [⟨line, token, []⟩]
  | token :: next :: rest =>
      if token.item = .word .declare then ⟨line, token, next :: rest⟩ :: ofTokens line rest
      else ⟨line, token, next :: rest⟩ :: ofTokens line (next :: rest)

/-- The turns of a source text. -/
def ofSource (source : String) : List Turn :=
  (Line.ofSource source).flatMap fun line => ofTokens line.number line.tokens

/-- The command of a turn. -/
def command (turn : Turn) : Command :=
  match turn.token.item with
  | .literal value => .push (.integer value)
  | .ident name => .push (.name name)
  | .word word =>
      match word.primitive? with
      | some primitive => .perform primitive
      | none =>
          match turn.rest with
          | [] => .declareNothing
          | target :: _ => Command.declaration target

/-- The step of a turn, which is reported in the column of its token. -/
def step (turn : Turn) : Step := ⟨turn.line, turn.token.column, turn.command⟩

/-- The commands of a line, read from its first token on. -/
theorem ofTokens_cons (line : Nat) (token : Located Token) (rest : List (Located Token)) :
    Command.ofTokens (token :: rest) =
      ⟨token.column, command ⟨line, token, rest⟩⟩ ::
        Command.ofTokens (if token.item = .word .declare then rest.tail else rest) := by
  rw [Command.ofTokens.eq_def, command]
  dsimp only
  cases hitem : token.item with
  | literal value => simp
  | ident name => simp
  | word word =>
      cases hprimitive : word.primitive? with
      | some primitive =>
          have hword : word ≠ .declare := by
            rintro rfl
            cases hprimitive
          simp [hword, hprimitive]
      | none =>
          obtain rfl := Word.primitive?_eq_none_iff.1 hprimitive
          cases rest <;> simp [hprimitive, Command.ofTokens]

/-- Every command of a line has its turn. -/
theorem steps_eq_map (line : Nat) (tokens : List (Located Token)) :
    (Line.mk line tokens).steps = (ofTokens line tokens).map step := by
  simp only [Line.steps]
  fun_induction ofTokens line tokens with
  | case1 => rfl
  | case2 token =>
      rw [ofTokens_cons line]
      simp [Command.ofTokens, step]
  | case3 token next rest hdeclare ih =>
      rw [ofTokens_cons line, if_pos hdeclare, List.map_cons, List.map_cons, List.tail_cons, ih]
      rfl
  | case4 token next rest hdeclare ih =>
      rw [ofTokens_cons line, if_neg hdeclare, List.map_cons, List.map_cons, ih]
      rfl

theorem ofSource_map_step (source : String) :
    (ofSource source).map step = Step.ofSource source := by
  rw [ofSource, Step.ofSource, List.map_flatMap]
  congr 1
  funext line
  exact (steps_eq_map line.number line.tokens).symm

/-- The word with a given primitive, in one of its spellings, is what performs it. -/
theorem command_eq_perform_iff {turn : Turn} {primitive : Primitive} :
    turn.command = .perform primitive ↔
      ∃ word, turn.token.item = .word word ∧ word.primitive? = some primitive := by
  rw [command]
  cases hitem : turn.token.item with
  | literal value => simp
  | ident name => simp
  | word word =>
      cases hprimitive : word.primitive? with
      | some other => simp [hprimitive]
      | none =>
          cases hrest : turn.rest with
          | nil => simp [hprimitive]
          | cons target rest =>
              cases htarget : target.item <;> simp [hprimitive, Command.declaration, htarget]

/-- The turn is a declaration of a name: the name is the token behind the declaring word. -/
def Declares (turn : Turn) (x : String) : Prop :=
  turn.token.item = .word .declare ∧
    ∃ target rest, turn.rest = target :: rest ∧ target.item = .ident x

theorem command_eq_declare_iff {turn : Turn} {x : String} :
    turn.command = .declare x ↔ turn.Declares x := by
  rw [command, Declares]
  cases hitem : turn.token.item with
  | literal value => simp
  | ident name => simp
  | word word =>
      cases hprimitive : word.primitive? with
      | some primitive =>
          have hword : word ≠ .declare := by
            rintro rfl
            cases hprimitive
          simp [hword, hprimitive]
      | none =>
          obtain rfl := Word.primitive?_eq_none_iff.1 hprimitive
          cases hrest : turn.rest with
          | nil => simp [hprimitive]
          | cons target rest =>
              cases htarget : target.item <;> simp [hprimitive, Command.declaration, htarget]

/-- The turn is that of a storing word. -/
def IsStore (turn : Turn) : Prop :=
  turn.token.item = .word .bang ∨ turn.token.item = .word .store

/-- The turn is that of a fetching word. -/
def IsFetch (turn : Turn) : Prop :=
  turn.token.item = .word .atSign ∨ turn.token.item = .word .fetch

theorem command_eq_store_iff {turn : Turn} : turn.command = .perform .store ↔ turn.IsStore := by
  rw [command_eq_perform_iff, IsStore]
  constructor
  · rintro ⟨word, hword, hprimitive⟩
    cases word <;> simp_all [Word.primitive?]
  · rintro (h | h)
    · exact ⟨_, h, rfl⟩
    · exact ⟨_, h, rfl⟩

theorem command_eq_fetch_iff {turn : Turn} : turn.command = .perform .fetch ↔ turn.IsFetch := by
  rw [command_eq_perform_iff, IsFetch]
  constructor
  · rintro ⟨word, hword, hprimitive⟩
    cases word <;> simp_all [Word.primitive?]
  · rintro (h | h)
    · exact ⟨_, h, rfl⟩
    · exact ⟨_, h, rfl⟩

end Turn

end Turns

section Effects

namespace Variables

/-- Overwriting a variable shows in its own value only. -/
theorem value?_overwrite (vars : Variables) (name other : String) (value : Int32) :
    (vars.overwrite name value).value? other =
      if other = name then (vars.value? name).map fun _ => value else vars.value? other :=
  lookup_overwrite vars.entries name other value

end Variables

namespace State

variable {s : State} {x : String} {n : Int32}

/-- A name on top of an integer is what a store takes. -/
def Offers (s : State) (x : String) (n : Int32) : Prop :=
  ∃ rest, s.stack.items = .name x :: .integer n :: rest

/-- No primitive but a store changes the variables. -/
theorem vars_perform {primitive : Primitive} (h : primitive ≠ .store) (s : State) :
    (s.perform primitive).1.vars = s.vars := by
  obtain ⟨⟨items⟩, vars⟩ := s
  cases harrangement : primitive.arrangement? with
  | some results =>
      rw [perform_eq_arrange _ harrangement, arrange_eq]
      split <;> rfl
  | none =>
      cases primitive with
      | store => exact (h rfl).elim
      | fetch =>
          simp only [perform, fetch]
          split
          · rfl
          · split <;> rfl
      | dup | drop | copySecond =>
          simp only [perform, dup, drop, copySecond]
          split <;> rfl
      | negate =>
          simp only [perform, negate]
          split
          · rfl
          · split <;> rfl
      | print =>
          simp only [perform, print]
          split <;> rfl
      | printStack => rfl
      | _ => cases harrangement

/-- A store under the name of a variable overwrites it. -/
theorem vars_store_of_offers (h : s.Offers x n) (hx : x ∈ s.vars.names) :
    s.store.1.vars = s.vars.overwrite x n := by
  obtain ⟨⟨items⟩, vars⟩ := s
  obtain ⟨rest, rfl⟩ := h
  simp only [store, Stack.popTwo, Variables.assign_eq]
  rw [if_pos hx]

/-- Any other store is abandoned. -/
theorem vars_store_of_not_offers (h : ∀ x n, s.Offers x n → x ∉ s.vars.names) :
    s.store.1.vars = s.vars := by
  obtain ⟨⟨items⟩, vars⟩ := s
  rcases items with _ | ⟨target, _ | ⟨value, rest⟩⟩
  · rfl
  · rfl
  · simp only [store, Stack.popTwo, Variables.assign_eq]
    cases target with
    | integer m => rfl
    | name y =>
        cases value with
        | integer m =>
            have hy : y ∉ vars.names := h y m ⟨rest, rfl⟩
            simp only [hy, if_false]
        | name z => by_cases hy : y ∈ vars.names <;> simp only [hy, if_true, if_false]

theorem Offers.unique {y : String} {m : Int32} (h : s.Offers x n) (h' : s.Offers y m) :
    x = y ∧ n = m := by
  obtain ⟨rest, hitems⟩ := h
  obtain ⟨rest', hitems'⟩ := h'
  rw [hitems] at hitems'
  cases hitems'
  exact ⟨rfl, rfl⟩

/-- A store gives a variable the integer that it finds under its name, or leaves its value. -/
theorem value?_store (s : State) (x : String) :
    (∃ n, s.Offers x n ∧ (s.vars.value? x).isSome = true ∧
      s.store.1.vars.value? x = some n) ∨
    ((∀ n, s.Offers x n → s.vars.value? x = none) ∧
      s.store.1.vars.value? x = s.vars.value? x) := by
  by_cases hoffer : ∃ y n, s.Offers y n ∧ y ∈ s.vars.names
  · obtain ⟨y, n, hoffers, hy⟩ := hoffer
    have hafter : s.store.1.vars.value? x =
        if x = y then (s.vars.value? y).map fun _ => n else s.vars.value? x := by
      rw [vars_store_of_offers hoffers hy, Variables.value?_overwrite]
    by_cases hx : x = y
    · subst hx
      obtain ⟨value, hvalue⟩ := Variables.exists_value?_of_mem hy
      exact .inl ⟨n, hoffers, by simp [hvalue], by simp [hafter, hvalue]⟩
    · exact .inr ⟨fun m hoffers' => (hx (hoffers'.unique hoffers).1).elim, by simp [hafter, hx]⟩
  · have hnone : ∀ y n, s.Offers y n → y ∉ s.vars.names := fun y n hoffers hy =>
      hoffer ⟨y, n, hoffers, hy⟩
    refine .inr ⟨?_, by rw [vars_store_of_not_offers hnone]⟩
    intro n hoffers
    exact Option.not_isSome_iff_eq_none.1 fun hsome =>
      hnone x n hoffers ((s.vars.isDeclared_iff x).1 hsome)

/-- The value of a variable after a command: it is that of a successful store, zero after the
first declaration, and what it was after anything else. -/
theorem value?_execute (s : State) (command : Command) (x : String) :
    (∃ n, command = .perform .store ∧ s.Offers x n ∧ (s.vars.value? x).isSome = true ∧
      (s.execute command).1.vars.value? x = some n) ∨
    (command = .declare x ∧ s.vars.value? x = none ∧
      (s.execute command).1.vars.value? x = some 0) ∨
    ((∀ n, command = .perform .store → s.Offers x n → s.vars.value? x = none) ∧
      (command = .declare x → s.vars.value? x ≠ none) ∧
      (s.execute command).1.vars.value? x = s.vars.value? x) := by
  cases command with
  | push operand => exact .inr (.inr ⟨by simp, by simp, rfl⟩)
  | declareNothing => exact .inr (.inr ⟨by simp, by simp, rfl⟩)
  | declareReserved token column => exact .inr (.inr ⟨by simp, by simp, rfl⟩)
  | declare name =>
      have hafter : (s.execute (.declare name)).1.vars.value? x =
          (s.vars.value? x).or (if x = name then some 0 else none) :=
        s.vars.value?_declare name x
      by_cases hx : x = name
      · subst hx
        cases hvalue : s.vars.value? x with
        | none => exact .inr (.inl ⟨rfl, rfl, by simp [hafter, hvalue]⟩)
        | some value => exact .inr (.inr ⟨by simp, by simp, by simp [hafter, hvalue]⟩)
      · refine .inr (.inr ⟨by simp, ?_, by simp [hafter, hx]⟩)
        rintro ⟨⟩
        exact (hx rfl).elim
  | perform primitive =>
      by_cases hstore : primitive = .store
      · subst hstore
        rcases s.value?_store x with ⟨n, hoffers, hsome, hafter⟩ | ⟨hnone, hafter⟩
        · exact .inl ⟨n, rfl, hoffers, hsome, hafter⟩
        · exact .inr (.inr ⟨fun n _ => hnone n, by simp, hafter⟩)
      · refine .inr (.inr ⟨fun n heq => (hstore (Command.perform.inj heq)).elim, by simp, ?_⟩)
        rw [execute, vars_perform hstore]

/-- A fetch replaces the name of a variable by its value, and is abandoned if there is no such
variable. -/
theorem fetch_eq_of_name {rest : List Operand} (h : s.stack.items = .name x :: rest) :
    s.fetch = match s.vars.value? x with
      | some n => (⟨⟨.integer n :: rest⟩, s.vars⟩, .done)
      | none => (⟨⟨rest⟩, s.vars⟩, .abandoned (.undeclared x)) := by
  obtain ⟨⟨items⟩, vars⟩ := s
  obtain rfl : items = .name x :: rest := h
  cases hvalue : vars.value? x with
  | some n => simp only [fetch, Stack.pop, Variables.read_name_of_value? hvalue]; rfl
  | none =>
      have hx : x ∉ vars.names := fun hmem => by
        obtain ⟨value, hsome⟩ := Variables.exists_value?_of_mem hmem
        rw [hvalue] at hsome
        cases hsome
      simp only [fetch, Stack.pop, Variables.read_name_of_notMem hx]

end State

end Effects

section Logs

/-- A turn with the state that it found. -/
structure Dispatch where
  found : State
  turn : Turn

namespace Dispatch

/-- The effect of a dispatch. -/
def effect (d : Dispatch) : State × Outcome := d.found.execute d.turn.command

end Dispatch

/-- What was dispatched, the latest in front. -/
abbrev Log := List Dispatch

namespace Log

/-- A declaration of a variable has been dispatched. -/
def Declared (log : Log) (x : String) : Prop := ∃ d ∈ log, d.turn.Declares x

/-- A dispatch behind a log stores an integer in a variable: it is a storing word, finds the
name on top of the integer, and the variable is declared already. -/
def Stores (log : Log) (d : Dispatch) (x : String) (n : Int32) : Prop :=
  d.turn.IsStore ∧ d.found.Offers x n ∧ log.Declared x

/-- The latest store in a variable is that of an integer. -/
inductive LastStored (x : String) (n : Int32) : Log → Prop
  | now {d : Dispatch} {log : Log} (h : log.Stores d x n) : LastStored x n (d :: log)
  | before {d : Dispatch} {log : Log} (h : ∀ m, ¬ log.Stores d x m)
      (tail : LastStored x n log) : LastStored x n (d :: log)

/-- Nothing was ever stored in a variable. -/
inductive NeverStored (x : String) : Log → Prop
  | start : NeverStored x []
  | before {d : Dispatch} {log : Log} (h : ∀ m, ¬ log.Stores d x m)
      (tail : NeverStored x log) : NeverStored x (d :: log)

/-- What a log tells about a variable. Without a declaration it does not exist; with one it has
the integer stored last, or zero. -/
def Tells (log : Log) (x : String) : Option Int32 → Prop
  | none => ¬ log.Declared x
  | some n => log.Declared x ∧ (LastStored x n log ∨ n = 0 ∧ NeverStored x log)

/-- A log leads to a state: each entry has found the state in which the one behind it left
off, and the first one found nothing. -/
inductive LeadsTo : Log → State → Prop
  | start : LeadsTo [] .empty
  | step {d : Dispatch} {log : Log} (tail : LeadsTo log d.found) : LeadsTo (d :: log) d.effect.1

variable {log : Log} {d : Dispatch} {x : String}

theorem declared_cons : Declared (d :: log) x ↔ d.turn.Declares x ∨ log.Declared x := by
  simp [Declared]

theorem neverStored_of_not_declared (h : ¬ log.Declared x) : NeverStored x log := by
  induction log with
  | nil => exact .start
  | cons d log ih =>
      rw [declared_cons, not_or] at h
      exact .before (fun m hstores => h.2 hstores.2.2) (ih h.2)

theorem Tells.isSome_iff {value : Option Int32} (h : log.Tells x value) :
    value.isSome = true ↔ log.Declared x := by
  cases value with
  | none => exact iff_of_false Bool.false_ne_true h
  | some n => exact iff_of_true rfl h.1

/-- One more dispatch keeps the log and the variables together. -/
theorem Tells.execute (h : log.Tells x (d.found.vars.value? x)) :
    Tells (d :: log) x (d.effect.1.vars.value? x) := by
  have hdeclared := h.isSome_iff
  rcases d.found.value?_execute d.turn.command x with ⟨n, hstore, hoffers, hsome, hafter⟩ |
    ⟨hdeclare, hnone, hafter⟩ | ⟨hstore, hdeclare, hafter⟩
  · rw [Dispatch.effect, hafter]
    have hbefore := hdeclared.1 hsome
    exact ⟨declared_cons.2 (.inr hbefore),
      .inl (.now ⟨Turn.command_eq_store_iff.1 hstore, hoffers, hbefore⟩)⟩
  · rw [Dispatch.effect, hafter]
    rw [hnone] at h
    refine ⟨declared_cons.2 (.inl (Turn.command_eq_declare_iff.1 hdeclare)), .inr ⟨rfl, ?_⟩⟩
    exact .before (fun m hstores => h hstores.2.2) (neverStored_of_not_declared h)
  · rw [Dispatch.effect, hafter]
    -- Neither a store nor a first declaration: the entry adds nothing to what the log tells.
    have hquiet : ∀ m, ¬ log.Stores d x m := by
      rintro m ⟨hword, hoffers, hbefore⟩
      have hnone := hstore m (Turn.command_eq_store_iff.2 hword) hoffers
      rw [← hdeclared, hnone] at hbefore
      cases hbefore
    have hsame : Declared (d :: log) x ↔ log.Declared x := by
      rw [declared_cons, or_iff_right_iff_imp]
      intro hdeclares
      rw [← hdeclared]
      exact Option.isSome_iff_ne_none.2 (hdeclare (Turn.command_eq_declare_iff.2 hdeclares))
    cases hvalue : d.found.vars.value? x with
    | none =>
        rw [hvalue] at h
        exact fun hnow => h (hsame.1 hnow)
    | some n =>
        rw [hvalue] at h
        refine ⟨hsame.2 h.1, ?_⟩
        rcases h.2 with hlast | ⟨hzero, hnever⟩
        · exact .inl (.before hquiet hlast)
        · exact .inr ⟨hzero, .before hquiet hnever⟩

/-- The values in a state are those that the log leading to it tells. -/
theorem LeadsTo.tells {s : State} (h : log.LeadsTo s) (x : String) :
    log.Tells x (s.vars.value? x) := by
  induction h with
  | start => exact fun ⟨d, hmem, _⟩ => List.not_mem_nil hmem
  | step tail ih => exact ih.execute

/-- Every entry has found the state to which the entries behind it lead. -/
theorem LeadsTo.of_suffix {s : State} {earlier : Log} (h : log.LeadsTo s)
    (hsuffix : d :: earlier <:+ log) : earlier.LeadsTo d.found := by
  induction h with
  | start => simp at hsuffix
  | step tail ih =>
      rcases List.suffix_cons_iff.1 hsuffix with heq | hsuffix
      · cases heq
        exact tail
      · exact ih hsuffix

end Log

end Logs

section Calls

/-- What the owner of a session can do with it. -/
inductive Call
  | execute (source : String)
  | clear
  | drain

namespace Session

/-- A session after a call. -/
def call (session : Session) : Call → Session
  | .execute source => (session.execute source).1
  | .clear => session.clear
  | .drain => session.drain.2

/-- The log after some turns, up to the one that ends the run. -/
def record (session : Session) (log : Log) : List Turn → Log
  | [] => log
  | turn :: rest =>
      match session.take turn.step with
      | (after, none) => after.record (⟨session.state, turn⟩ :: log) rest
      | (_, some _) => ⟨session.state, turn⟩ :: log

/-- The log after a call. It holds what was dispatched since the last reset. -/
def recordCall (session : Session) (log : Log) : Call → Log
  | .execute source =>
      session.start.record (if session.options.persist then log else []) (Turn.ofSource source)
  | .clear => []
  | .drain => log

/-- The log after some calls. -/
def recordCalls (session : Session) (log : Log) : List Call → Log
  | [] => log
  | call :: rest => (session.call call).recordCalls (session.recordCall log call) rest

theorem leadsTo_record {session : Session} {log : Log} (h : log.LeadsTo session.state)
    (turns : List Turn) :
    (session.record log turns).LeadsTo (session.takeAll (turns.map Turn.step)).1.state := by
  induction turns generalizing session log with
  | nil => exact h
  | cons turn rest ih =>
      have hstate := session.state_take turn.step
      have hnext : Log.LeadsTo (⟨session.state, turn⟩ :: log) (session.take turn.step).1.state := by
        rw [hstate]
        exact .step h
      rw [List.map_cons, takeAll, record]
      generalize session.take turn.step = result at hnext
      obtain ⟨after, _ | fatal⟩ := result
      · exact ih hnext
      · exact hnext

theorem leadsTo_recordCall {session : Session} {log : Log} (h : log.LeadsTo session.state)
    (call : Call) : (session.recordCall log call).LeadsTo (session.call call).state := by
  cases call with
  | execute source =>
      have hstart : Log.LeadsTo (if session.options.persist then log else [])
          session.start.state := by
        unfold start
        split
        · exact h
        · exact .start
      have hrecord := leadsTo_record hstart (Turn.ofSource source)
      rw [Turn.ofSource_map_step] at hrecord
      exact hrecord
  | clear => exact .start
  | drain => exact h

/-- The log of any calls leads to the state in which they leave the session. -/
theorem leadsTo_recordCalls {session : Session} {log : Log} (h : log.LeadsTo session.state)
    (calls : List Call) :
    (session.recordCalls log calls).LeadsTo (calls.foldl call session).state := by
  induction calls generalizing session log with
  | nil => exact h
  | cons call rest ih => exact ih (leadsTo_recordCall h call)

/-- Variables remember their history since the last reset, whatever the session was made to do.
A variable exists exactly when its declaration was dispatched, and holds the integer that was
stored last, or zero. This holds at every dispatch in between too: only a store that finds the
name of a variable above an integer changes a value that exists, only a first declaration makes
one, and a fetch that is not abandoned pushes the value that the log tells. -/
theorem value?_after_calls (options : Options) (calls : List Call) (x : String) :
    let session := calls.foldl Session.call (Session.new options)
    let log := (Session.new options).recordCalls [] calls
    log.LeadsTo session.state ∧
      ((session.state.vars.value? x).isSome = true ↔ log.Declared x) ∧
      (∀ n, session.state.vars.value? x = some n →
        Log.LastStored x n log ∨ n = 0 ∧ Log.NeverStored x log) ∧
      ∀ d earlier, d :: earlier <:+ log →
        Log.Tells earlier x (d.found.vars.value? x) ∧
        ((∀ n, ¬ Log.Stores earlier d x n) → (d.turn.Declares x → Log.Declared earlier x) →
          d.effect.1.vars.value? x = d.found.vars.value? x) ∧
        ∀ rest, d.turn.IsFetch → d.found.stack.items = .name x :: rest →
          (d.effect.2 = .done ↔ Log.Declared earlier x) ∧
          (d.effect.2 = .done → ∃ n, Log.Tells earlier x (some n) ∧
            d.effect.1 = ⟨⟨.integer n :: rest⟩, d.found.vars⟩) := by
  intro session log
  have hleads : log.LeadsTo session.state := leadsTo_recordCalls .start calls
  have htells := hleads.tells x
  refine ⟨hleads, htells.isSome_iff, ?_, ?_⟩
  · intro n hvalue
    rw [hvalue] at htells
    exact htells.2
  · intro d earlier hsuffix
    have hfound := (hleads.of_suffix hsuffix).tells x
    refine ⟨hfound, ?_, ?_⟩
    · intro hquiet hdeclares
      rcases d.found.value?_execute d.turn.command x with ⟨n, hstore, hoffers, hsome, _⟩ |
        ⟨hdeclare, hnone, _⟩ | ⟨_, _, hafter⟩
      · exact (hquiet n ⟨Turn.command_eq_store_iff.1 hstore, hoffers,
          hfound.isSome_iff.1 hsome⟩).elim
      · have hsome := hfound.isSome_iff.2 (hdeclares (Turn.command_eq_declare_iff.1 hdeclare))
        rw [hnone] at hsome
        cases hsome
      · exact hafter
    · intro rest hfetch hitems
      have heffect : d.effect = d.found.fetch := by
        rw [Dispatch.effect, Turn.command_eq_fetch_iff.2 hfetch]
        rfl
      rw [heffect, State.fetch_eq_of_name hitems, ← hfound.isSome_iff]
      cases hvalue : d.found.vars.value? x with
      | none => simp
      | some n =>
          rw [hvalue] at hfound
          exact ⟨by simp, fun _ => ⟨n, hfound, rfl⟩⟩

end Session

end Calls

end StraightForth
