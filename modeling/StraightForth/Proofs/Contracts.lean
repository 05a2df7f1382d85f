import StraightForth.Proofs.Places

/-!
# Contracts of the words

Every word but the declaring one works on a fixed number of operands on top of the stack. Where
there are fewer, it changes nothing. Operands that it refuses are gone all the same, and nothing
else has happened. Any others it turns into what its stack effect says. The main statement is
that words do this and nothing more, whatever lies below their operands.

## Implementation notes

The tables in this module are about words as they are spelled, and not about what is run for
them. Operands stand in the order in which a program writes them, the topmost one last.
-/

namespace StraightForth

section Tables

/-- The name among some operands that lies uppermost. -/
def Operand.uppermostName? (operands : List Operand) : Option String :=
  operands.reverse.findSome? fun operand =>
    match operand with
    | .integer _ => none
    | .name x => some x

namespace Word

/-- The number of operands that a word works on. -/
def arity : Word → Nat
  | .dup | .drop | .neg | .dot | .atSign | .fetch => 1
  | .plus | .minus | .star | .mod | .swap | .copySecond | .nip | .tuck | .bang | .store => 2
  | .declare | .dotS => 0

/-- The words that do not mind an empty stack. -/
def isLenient : Word → Bool
  | .dup | .drop | .neg | .dot => true
  | _ => false

/-- The words that work on integers only. -/
def takesIntegers : Word → Bool
  | .plus | .minus | .star | .mod | .swap | .nip | .tuck | .neg => true
  | _ => false

/-- The two spellings of storing. -/
def stores : Word → Bool
  | .bang | .store => true
  | _ => false

/-- The two spellings of fetching. -/
def fetches : Word → Bool
  | .atSign | .fetch => true
  | _ => false

/-- The operands that a word refuses, and what it reports about them. Of two faults in a store
it is the name of the variable that is reported, and of two names among integers the upper one. -/
inductive Refuses (vars : Variables) : Word → List Operand → DiagnosticKind → String → Prop
  | nameAmongIntegers {word : Word} {operands : List Operand} {x : String}
      (hword : word.takesIntegers = true) (hx : Operand.uppermostName? operands = some x) :
      Refuses vars word operands .typeMismatch ("expected integer, found " ++ x)
  | storeUnderInteger {word : Word} (hword : word.stores = true) (value : Operand) (n : Int32) :
      Refuses vars word [value, .integer n] .invalidName
        (Decimal.text n.toInt ++ " is not a variable name")
  | storeUndeclared {word : Word} {x : String} (hword : word.stores = true) (value : Operand)
      (hx : vars.value? x = none) :
      Refuses vars word [value, .name x] .undefinedVariable x
  | storeOfName {word : Word} {x : String} (hword : word.stores = true) (y : String)
      (hx : (vars.value? x).isSome = true) :
      Refuses vars word [.name y, .name x] .invalidValue ("expected integer, found " ++ y)
  | fetchUnderInteger {word : Word} (hword : word.fetches = true) (n : Int32) :
      Refuses vars word [.integer n] .invalidName
        (Decimal.text n.toInt ++ " is not a variable name")
  | fetchUndeclared {word : Word} {x : String} (hword : word.fetches = true)
      (hx : vars.value? x = none) :
      Refuses vars word [.name x] .undefinedVariable x

/-- The stack effects of the words: the operands before, and those that take their place. -/
inductive Turns (vars : Variables) : Word → List Operand → List Operand → Prop
  | plus (a b : Int32) : Turns vars .plus [.integer a, .integer b] [.integer (a + b)]
  | minus (a b : Int32) : Turns vars .minus [.integer a, .integer b] [.integer (a - b)]
  | star (a b : Int32) : Turns vars .star [.integer a, .integer b] [.integer (a * b)]
  | modZero (a : Int32) : Turns vars .mod [.integer a, .integer 0] [.integer 0]
  | mod {a b r : Int32} (hb : b ≠ 0) (hr : r.toInt = a.toInt.tmod b.toInt) :
      Turns vars .mod [.integer a, .integer b] [.integer r]
  | neg (a : Int32) : Turns vars .neg [.integer a] [.integer (-a)]
  | dup (a : Operand) : Turns vars .dup [a] [a, a]
  | drop (a : Operand) : Turns vars .drop [a] []
  | swap (a b : Int32) : Turns vars .swap [.integer a, .integer b] [.integer b, .integer a]
  | copySecond (a b : Operand) : Turns vars .copySecond [a, b] [a, b, a]
  | nip (a b : Int32) : Turns vars .nip [.integer a, .integer b] [.integer b]
  | tuck (a b : Int32) :
      Turns vars .tuck [.integer a, .integer b] [.integer b, .integer a, .integer b]
  | dot (a : Operand) : Turns vars .dot [a] []
  | dotS : Turns vars .dotS [] []
  | store {word : Word} {x : String} (hword : word.stores = true) (n : Int32)
      (hx : (vars.value? x).isSome = true) : Turns vars word [.integer n, .name x] []
  | fetch {word : Word} {x : String} {n : Int32} (hword : word.fetches = true)
      (hx : vars.value? x = some n) : Turns vars word [.name x] [.integer n]

/-- A word with such operands gives an integer to a variable. -/
def Assigns (word : Word) (operands : List Operand) (x : String) (n : Int32) : Prop :=
  word.stores = true ∧ operands = [.integer n, .name x]

/-- What a word prints, given all that is on the stack. -/
def print? (operands : List Operand) : Word → Option String
  | .dot => operands.getLast?.map fun top => top.text ++ "\n"
  | .dotS => some ("[Bottom -> Top] [" ++ ", ".intercalate (operands.map Operand.text) ++ "]\n")
  | _ => none

end Word

end Tables

section Exclusion

variable {vars : Variables} {word : Word} {operands results : List Operand}
  {kind kind' : DiagnosticKind} {message message' : String}

namespace Word

theorem takesIntegers_of_stores (h : word.stores = true) : word.takesIntegers = false := by
  cases word <;> first | rfl | cases h

theorem takesIntegers_of_fetches (h : word.fetches = true) : word.takesIntegers = false := by
  cases word <;> first | rfl | cases h

/-- Words that take integers refuse names, and nothing else. -/
theorem Refuses.of_takesIntegers (h : word.Refuses vars operands kind message)
    (hword : word.takesIntegers = true) :
    ∃ x, Operand.uppermostName? operands = some x ∧ kind = .typeMismatch ∧
      message = "expected integer, found " ++ x := by
  cases h with
  | nameAmongIntegers _ hx => exact ⟨_, hx, rfl, rfl⟩
  | storeUnderInteger hstores | storeUndeclared hstores | storeOfName hstores =>
      rw [takesIntegers_of_stores hstores] at hword
      cases hword
  | fetchUnderInteger hfetches | fetchUndeclared hfetches =>
      rw [takesIntegers_of_fetches hfetches] at hword
      cases hword

/-- There is one reason at most to refuse operands. -/
theorem Refuses.unique (h : word.Refuses vars operands kind message)
    (h' : word.Refuses vars operands kind' message') : kind = kind' ∧ message = message' := by
  by_cases hintegers : word.takesIntegers = true
  · obtain ⟨x, hx, rfl, rfl⟩ := h.of_takesIntegers hintegers
    obtain ⟨y, hy, rfl, rfl⟩ := h'.of_takesIntegers hintegers
    obtain rfl := Option.some.inj (hx.symm.trans hy)
    exact ⟨rfl, rfl⟩
  · cases h with
    | nameAmongIntegers hword => exact (hintegers hword).elim
    | storeUnderInteger =>
        cases h' with
        | nameAmongIntegers hword => exact (hintegers hword).elim
        | storeUnderInteger => exact ⟨rfl, rfl⟩
    | storeUndeclared _ _ hx =>
        cases h' with
        | nameAmongIntegers hword => exact (hintegers hword).elim
        | storeUndeclared => exact ⟨rfl, rfl⟩
        | storeOfName _ _ hx' =>
            rw [hx] at hx'
            cases hx'
    | storeOfName _ _ hx =>
        cases h' with
        | nameAmongIntegers hword => exact (hintegers hword).elim
        | storeUndeclared _ _ hx' =>
            rw [hx'] at hx
            cases hx
        | storeOfName => exact ⟨rfl, rfl⟩
    | fetchUnderInteger =>
        cases h' with
        | nameAmongIntegers hword => exact (hintegers hword).elim
        | fetchUnderInteger => exact ⟨rfl, rfl⟩
    | fetchUndeclared =>
        cases h' with
        | nameAmongIntegers hword => exact (hintegers hword).elim
        | fetchUndeclared => exact ⟨rfl, rfl⟩

/-- Operands that a word turns into others are none that it refuses. -/
theorem Turns.not_refuses (h : word.Turns vars operands results) :
    ¬ word.Refuses vars operands kind message := by
  intro hrefuses
  cases hrefuses with
  | nameAmongIntegers hword hx =>
      cases h with
      | dup | drop | copySecond | dot | dotS => cases hword
      | store hword' =>
          rw [takesIntegers_of_stores hword'] at hword
          cases hword
      | fetch hword' =>
          rw [takesIntegers_of_fetches hword'] at hword
          cases hword
      | _ => cases hx
  | storeUnderInteger hword => cases h <;> cases hword
  | storeUndeclared hword value hx =>
      cases h with
      | store _ _ hx' =>
          rw [hx] at hx'
          cases hx'
      | _ => cases hword
  | storeOfName hword =>
      cases h
      cases hword
  | fetchUnderInteger hword => cases h <;> cases hword
  | fetchUndeclared hword hx =>
      cases h with
      | fetch _ hx' =>
          rw [hx] at hx'
          cases hx'
      | _ => cases hword

end Word

end Exclusion

section Service

/-- The outcome of a word that is carried out and may print. -/
def Outcome.ofPrint : Option String → Outcome
  | none => .done
  | some text => .printed text

namespace Word

variable {word : Word} {primitive : Primitive} {operands deep : List Operand}
  {vars after : Variables}

/-- The variables after a word are those before it, but for one that it gives an integer to. -/
structure Leaves (word : Word) (operands : List Operand) (vars after : Variables) : Prop where
  assigned : ∀ x n, word.Assigns operands x n → after.value? x = some n
  kept : ∀ x, (∀ n, ¬ word.Assigns operands x n) → after.value? x = vars.value? x

theorem leaves_of_not_stores (h : word.stores = false) : word.Leaves operands vars vars where
  assigned x n hassigns := by
    rw [hassigns.1] at h
    cases h
  kept x _ := rfl

/-- A store leaves the variables with the integer for one of them. -/
theorem leaves_overwrite (hword : word.stores = true) {x : String} (hx : x ∈ vars.names)
    (n : Int32) : word.Leaves [.integer n, .name x] vars (vars.overwrite x n) where
  assigned y m hassigns := by
    obtain ⟨_, hoperands⟩ := hassigns
    cases hoperands
    obtain ⟨old, hold⟩ := Variables.exists_value?_of_mem hx
    rw [Variables.value?_overwrite, if_pos rfl, hold]
    rfl
  kept y hnot := by
    have hy : y ≠ x := by
      rintro rfl
      exact hnot n ⟨hword, rfl⟩
    rw [Variables.value?_overwrite, if_neg hy]

/-- What becomes of a state when a word has its operands on top of others. -/
inductive Serves (word : Word) (vars : Variables) (deep operands : List Operand) :
    State × Outcome → Prop
  | refused {fault : Fault} (h : word.Refuses vars operands fault.kind fault.message) :
      Serves word vars deep operands (⟨⟨deep.reverse⟩, vars⟩, .abandoned fault)
  | turned {results : List Operand} {after : Variables} {outcome : Outcome}
      (h : word.Turns vars operands results) (hvars : word.Leaves operands vars after)
      (hprint : outcome = .ofPrint (word.print? (deep ++ operands))) :
      Serves word vars deep operands (⟨⟨results.reverse ++ deep.reverse⟩, after⟩, outcome)

/-- Words for the same arrangement of two integers have its stack effect. -/
theorem turns_arrangement {results : Int32 → Int32 → List Int32}
    (h : word.primitive? = some primitive) (hresults : primitive.arrangement? = some results)
    (vars : Variables) (a b : Int32) :
    word.Turns vars [.integer a, .integer b] ((results a b).map .integer) := by
  cases word <;> cases h <;> cases hresults
  case plus => exact .plus a b
  case minus => exact .minus a b
  case star => exact .star a b
  case swap => exact .swap a b
  case nip => exact .nip a b
  case tuck => exact .tuck a b
  case mod =>
    by_cases hb : b = 0
    · subst hb
      exact .modZero a
    · refine .mod hb ?_
      rw [Operand.toInt_remainder, if_neg hb]

/-- The words that arrange two integers look at the upper operand first. -/
theorem serves_arrangement {results : Int32 → Int32 → List Int32}
    (h : word.primitive? = some primitive) (hresults : primitive.arrangement? = some results)
    (hintegers : word.takesIntegers = true) (hstores : word.stores = false)
    (hprint : ∀ operands, word.print? operands = none) (deep : List Operand)
    (second top : Operand) :
    word.Serves vars deep [second, top]
      (State.perform ⟨⟨top :: second :: deep.reverse⟩, vars⟩ primitive) := by
  rw [State.perform_eq_arrange _ hresults, State.arrange_eq]
  cases top with
  | name x => exact .refused (.nameAmongIntegers hintegers rfl)
  | integer b =>
      cases second with
      | name x => exact .refused (.nameAmongIntegers hintegers rfl)
      | integer a =>
          have hitems : (⟨deep.reverse⟩ : Stack Operand).pushAll ((results a b).map .integer) =
              ⟨((results a b).map Operand.integer).reverse ++ deep.reverse⟩ :=
            congrArg Stack.mk (Stack.items_pushAll _ _)
          dsimp only
          rw [hitems]
          exact .turned (turns_arrangement h hresults vars a b) (leaves_of_not_stores hstores)
            (by rw [hprint]; rfl)

theorem serves_store (hword : word.stores = true) (hprint : ∀ operands, word.print? operands = none)
    (deep : List Operand) (value target : Operand) :
    word.Serves vars deep [value, target]
      (State.store ⟨⟨target :: value :: deep.reverse⟩, vars⟩) := by
  have hnone {x : String} (hx : x ∉ vars.names) : vars.value? x = none :=
    Option.not_isSome_iff_eq_none.1 fun hsome => hx ((vars.isDeclared_iff x).1 hsome)
  simp only [State.store, Stack.popTwo, Variables.assign_eq]
  cases target with
  | integer n => exact .refused (.storeUnderInteger hword value n)
  | name x =>
      by_cases hx : x ∈ vars.names
      · have hsome := (vars.isDeclared_iff x).2 hx
        cases value with
        | integer n =>
            simp only [if_pos hx]
            exact .turned (.store hword n hsome) (leaves_overwrite hword hx n) (by rw [hprint]; rfl)
        | name y =>
            simp only [if_pos hx]
            exact .refused (.storeOfName hword y hsome)
      · cases value with
        | integer n =>
            simp only [if_neg hx]
            exact .refused (.storeUndeclared hword _ (hnone hx))
        | name y =>
            simp only [if_neg hx]
            exact .refused (.storeUndeclared hword _ (hnone hx))

theorem serves_fetch (hword : word.fetches = true) (hstores : word.stores = false)
    (hprint : ∀ operands, word.print? operands = none) (deep : List Operand) (target : Operand) :
    word.Serves vars deep [target] (State.fetch ⟨⟨target :: deep.reverse⟩, vars⟩) := by
  cases target with
  | integer n => exact .refused (.fetchUnderInteger hword n)
  | name x =>
      rw [State.fetch_eq_of_name rfl]
      dsimp only
      cases hx : vars.value? x with
      | none => exact .refused (.fetchUndeclared hword hx)
      | some n =>
          exact .turned (.fetch hword hx) (leaves_of_not_stores hstores) (by rw [hprint]; rfl)

/-- Every word serves the operands it is about. -/
theorem serves (h : word.primitive? = some primitive) (vars : Variables) (deep : List Operand)
    {operands : List Operand} (hoperands : operands.length = word.arity) :
    word.Serves vars deep operands
      (State.perform ⟨⟨operands.reverse ++ deep.reverse⟩, vars⟩ primitive) := by
  cases word with
  | declare => cases h
  | plus | minus | star | mod | swap | nip | tuck =>
      cases h
      obtain ⟨second, top, rfl⟩ := List.length_eq_two.1 hoperands
      exact serves_arrangement rfl rfl rfl rfl (fun _ => rfl) deep second top
  | bang | store =>
      cases h
      obtain ⟨value, target, rfl⟩ := List.length_eq_two.1 hoperands
      exact serves_store rfl (fun _ => rfl) deep value target
  | atSign | fetch =>
      cases h
      obtain ⟨target, rfl⟩ := List.length_eq_one_iff.1 hoperands
      exact serves_fetch rfl rfl (fun _ => rfl) deep target
  | copySecond =>
      cases h
      obtain ⟨second, top, rfl⟩ := List.length_eq_two.1 hoperands
      exact .turned (.copySecond second top) (leaves_of_not_stores rfl) rfl
  | dup =>
      cases h
      obtain ⟨top, rfl⟩ := List.length_eq_one_iff.1 hoperands
      exact .turned (.dup top) (leaves_of_not_stores rfl) rfl
  | drop =>
      cases h
      obtain ⟨top, rfl⟩ := List.length_eq_one_iff.1 hoperands
      exact .turned (.drop top) (leaves_of_not_stores rfl) rfl
  | dot =>
      cases h
      obtain ⟨top, rfl⟩ := List.length_eq_one_iff.1 hoperands
      refine .turned (.dot top) (leaves_of_not_stores rfl) ?_
      simp [print?, Outcome.ofPrint]
  | neg =>
      cases h
      obtain ⟨top, rfl⟩ := List.length_eq_one_iff.1 hoperands
      cases top with
      | integer a => exact .turned (.neg a) (leaves_of_not_stores rfl) rfl
      | name x => exact .refused (.nameAmongIntegers rfl rfl)
  | dotS =>
      cases h
      obtain rfl := List.length_eq_zero_iff.1 hoperands
      refine .turned .dotS (leaves_of_not_stores rfl) ?_
      apply congrArg Outcome.printed
      apply String.toList_inj.1
      simp [Stack.text, Stack.bracket, Stack.bottomUp]

theorem arity_le_two (word : Word) : word.arity ≤ 2 := by
  cases word <;> decide

/-- A word that finds too few operands leaves them. -/
theorem perform_of_scarce (h : word.primitive? = some primitive) {s : State}
    (hscarce : s.stack.size < word.arity) :
    s.perform primitive = (s, if word.isLenient then .done else .abandoned .underflow) := by
  obtain ⟨⟨items⟩, vars⟩ := s
  have hlength : items.length < word.arity := hscarce
  rcases items with _ | ⟨top, _ | ⟨second, rest⟩⟩
  · cases word with
    | declare => cases h
    | dotS => exact absurd hlength (Nat.not_lt_zero _)
    | _ =>
        cases h
        rfl
  · cases word with
    | declare => cases h
    | dotS => exact absurd hlength (Nat.not_lt_zero _)
    | dup | drop | neg | dot | atSign | fetch => exact absurd hlength (Nat.lt_irrefl 1)
    | _ =>
        cases h
        rfl
  · have harity := word.arity_le_two
    simp only [List.length_cons] at hlength
    omega

/-- So a word serves what lies on top of a stack. -/
theorem serves_perform (h : word.primitive? = some primitive) {s : State}
    (hbottomUp : s.stack.bottomUp = deep ++ operands) (hoperands : operands.length = word.arity) :
    word.Serves s.vars deep operands (s.perform primitive) := by
  have hitems : s.stack.items = operands.reverse ++ deep.reverse := by
    rw [← List.reverse_append, ← hbottomUp, Stack.bottomUp, List.reverse_reverse]
  have hserves := serves h s.vars deep hoperands
  rwa [← hitems] at hserves

/-- What is printed is what the word has to print. -/
theorem print?_of_printed (h : word.primitive? = some primitive) {s : State} {text : String}
    (hprinted : (s.perform primitive).2 = .printed text) :
    word.print? s.stack.bottomUp = some text := by
  by_cases hscarce : s.stack.size < word.arity
  · rw [perform_of_scarce h hscarce] at hprinted
    cases hlenient : word.isLenient <;> simp [hlenient] at hprinted
  · have hsplit := List.take_append_drop (s.stack.size - word.arity) s.stack.bottomUp
    have hserves := serves_perform h hsplit.symm (by
      rw [List.length_drop, Stack.bottomUp, List.length_reverse, ← Stack.size]
      omega)
    rw [hsplit.symm]
    generalize s.perform primitive = performed at hserves hprinted
    cases hserves with
    | refused => cases hprinted
    | turned _ _ hprint =>
        rw [hprint] at hprinted
        generalize word.print? _ = shown at hprinted ⊢
        cases shown with
        | none => cases hprinted
        | some _ =>
            cases hprinted
            rfl

end Word

end Service

namespace Session

/-- What a word may do to a session. The event that it raises is a print, or the diagnostic for
which it is abandoned, in the place of the word; it gets into the queue unless it ends the run.

A word that finds fewer operands than it works on changes nothing, and unless it is a lenient
one it reports that. With enough operands on top of others it looks at its own only. Those that
it refuses are taken off, and nothing happens but the report. Any others it turns into what its
stack effect says; a store then has changed one variable, no other word any, and only the words
that print have printed, once. -/
theorem take_word {word : Word} {primitive : Primitive} (h : word.primitive? = some primitive)
    (session : Session) (line : Nat) (column : Span) :
    let ran := session.take ⟨line, column, .perform primitive⟩
    let s := session.state
    let t := ran.1.state
    ∃ raised : Option Event,
      ran.1.events.toList ++ (ran.2.map Event.diagnostic).toList =
        session.events.toList ++ raised.toList ∧
      (s.stack.size < word.arity → t = s ∧
        raised = if word.isLenient then none
          else some (.diagnostic ⟨.stackUnderflow, some line, column, ""⟩)) ∧
      ∀ deep operands, s.stack.bottomUp = deep ++ operands → operands.length = word.arity →
        (∀ kind message, word.Refuses s.vars operands kind message →
          t.stack.bottomUp = deep ∧ t.vars = s.vars ∧
            raised = some (.diagnostic ⟨kind, some line, column, message⟩)) ∧
        ((∀ kind message, ¬ word.Refuses s.vars operands kind message) →
          ∃ results, word.Turns s.vars operands results ∧
            t.stack.bottomUp = deep ++ results ∧
            (∀ x n, word.Assigns operands x n → t.vars.value? x = some n) ∧
            (∀ x, (∀ n, ¬ word.Assigns operands x n) → t.vars.value? x = s.vars.value? x) ∧
            raised = (word.print? s.stack.bottomUp).map Event.print) := by
  intro ran s t
  have hstate : t = (s.perform primitive).1 := session.state_take _
  refine ⟨_, session.events_take _, ?_, ?_⟩
  · intro hscarce
    rw [hstate, State.execute, Word.perform_of_scarce h hscarce]
    refine ⟨rfl, ?_⟩
    cases word.isLenient with
    | true => rfl
    | false => exact congrArg (some ∘ Event.diagnostic) (Fault.reportAt_eq ..)
  · intro deep operands hbottomUp hoperands
    have hplace {fault : Fault} (hfault : (s.perform primitive).2 = .abandoned fault) :
        fault.reportAt line column = ⟨fault.kind, some line, column, fault.message⟩ := by
      rw [Fault.reportAt_eq, if_pos (State.ownColumn_of_perform hfault)]
    have hserves := Word.serves_perform h hbottomUp hoperands
    rw [hstate, State.execute]
    generalize s.perform primitive = performed at hserves hplace
    cases hserves with
    | @refused fault hrefuses =>
        refine ⟨fun kind message hrefused => ?_, fun hserved => (hserved _ _ hrefuses).elim⟩
        obtain ⟨hkind, hmessage⟩ := hrefused.unique hrefuses
        refine ⟨List.reverse_reverse deep, rfl, ?_⟩
        rw [hkind, hmessage, ← hplace rfl]
        rfl
    | @turned results after outcome hturns hvars hprint =>
        refine ⟨fun kind message hrefused => (hturns.not_refuses hrefused).elim, fun _ =>
          ⟨results, hturns, ?_, hvars.assigned, hvars.kept, ?_⟩⟩
        · simp [Stack.bottomUp]
        · rw [hprint, hbottomUp]
          cases word.print? (deep ++ operands) <;> rfl

/-- A name is no value for a variable, but it is gone with the name of the variable. The integer
below both stays, and so does the zero in the variable. -/
theorem take_store_of_name :
    let session : Session :=
      ⟨{}, ⟨⟨[.name "x", .name "y", .integer 3]⟩, Variables.empty.declare "x"⟩, #[]⟩
    let ran := session.take ⟨1, ⟨22, 23⟩, .perform .store⟩
    Word.bang.primitive? = some .store ∧
      ran.1.state.stack.bottomUp = [.integer 3] ∧ ran.1.state.vars = session.state.vars ∧
      ran.1.events.toList ++ (ran.2.map Event.diagnostic).toList =
        [.diagnostic ⟨.invalidValue, some 1, ⟨22, 23⟩, "expected integer, found y"⟩] := by
  intro session ran
  obtain ⟨raised, hevents, _, hserves⟩ := @take_word .bang .store rfl session 1 ⟨22, 23⟩
  obtain ⟨hrefused, _⟩ := hserves [.integer 3] [.name "y", .name "x"] rfl rfl
  obtain ⟨hstack, hvars, hraised⟩ := hrefused _ _ (.storeOfName rfl "y" (by decide))
  rw [hraised] at hevents
  exact ⟨rfl, hstack, hvars, hevents⟩

end Session

end StraightForth
