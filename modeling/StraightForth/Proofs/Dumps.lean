import StraightForth.Proofs.Identifiers

/-!
# Dumps are read back

An operand that a session can hold is written as a token that is read back as that operand. A
dump puts commas between such texts, and a comma never passes for the end of one, since a blank
stands behind it. So a dump shows what the stack holds and nothing else could be meant. The main
statement adds that the operands, written with spaces between them, are a text that builds the
stack again.
-/

namespace StraightForth

namespace Operand

/-- The token that an operand is written as. -/
def token : Operand → Token
  | .integer value => .literal value
  | .name x => .ident x

theorem text_token (operand : Operand) : operand.token.text = operand.text := by
  cases operand <;> rfl

theorem token_injective : Function.Injective token := by
  intro operand other h
  cases operand <;> cases other <;> cases h <;> rfl

/-- An integer is written so that it is read back. -/
theorem legible_integer (value : Int32) : (integer value).token.Legible where
  solid := Decimal.solid_text value.toInt
  reread := by
    change Token.ofString (Decimal.text value.toInt) = .literal value
    simp only [Token.ofString, Word.ofSpelling?_decimal, Decimal.int32?_text]

end Operand

section Legible

variable {operands : List Operand}

/-- Legible operands are read from their texts. -/
theorem Operand.map_ofString_text (h : ∀ operand ∈ operands, operand.token.Legible) :
    (operands.map text).map Token.ofString = operands.map token := by
  rw [List.map_map]
  apply List.map_congr_left
  intro operand hoperand
  rw [Function.comp_apply, ← text_token]
  exact (h operand hoperand).reread

theorem Operand.solid_texts (h : ∀ operand ∈ operands, operand.token.Legible) :
    ∀ word ∈ (operands.map text).map String.toList, Text.Solid word := by
  intro word hword
  rw [List.map_map] at hword
  obtain ⟨operand, hoperand, rfl⟩ := List.mem_map.1 hword
  rw [Function.comp_apply, ← text_token]
  exact (h operand hoperand).solid

/-- Texts of legible operands stand for these operands only. -/
theorem Operand.eq_of_map_text_eq {others : List Operand}
    (h : ∀ operand ∈ operands, operand.token.Legible)
    (h' : ∀ operand ∈ others, operand.token.Legible)
    (hsame : operands.map text = others.map text) : operands = others := by
  apply List.map_injective_iff.2 token_injective
  rw [← map_ofString_text h, ← map_ofString_text h', hsame]

end Legible

namespace State

variable {s t : State}

/-- Where names are identifiers, all operands are read back from their texts. -/
theorem HasIdentifiers.legible (h : s.HasIdentifiers) :
    ∀ operand ∈ s.stack.bottomUp, operand.token.Legible := by
  intro operand hoperand
  have hmem : operand ∈ s.stack.items := List.mem_reverse.1 hoperand
  cases operand with
  | integer value => exact Operand.legible_integer value
  | name x => exact isIdentifier_iff_legible.1 (h.stack x hmem)

end State

section Rows

variable {words words' : List (List Char)}

/-- With a comma behind each, words in a dump are words with spaces between them. -/
theorem Text.intercalate_comma (h : words ≠ []) :
    [',', ' '].intercalate words ++ [','] = [' '].intercalate (words.map (· ++ [','])) := by
  induction words with
  | nil => exact (h rfl).elim
  | cons word rest ih =>
      cases rest with
      | nil => simp
      | cons next rest =>
          have hlater := ih (List.cons_ne_nil next rest)
          rw [List.map_cons] at hlater
          rw [List.intercalate_cons_cons, List.map_cons, List.map_cons, List.intercalate_cons_cons,
            ← hlater]
          simp only [List.append_assoc, List.cons_append, List.nil_append]

theorem Text.Solid.comma {word : List Char} (h : Solid word) : Solid (word ++ [',']) where
  nonempty := List.append_ne_nil_of_left_ne_nil h.nonempty _
  visible c hc := by
    rcases List.mem_append.1 hc with hc | hc
    · exact h.visible c hc
    · rw [List.mem_singleton.1 hc]
      decide
  comment hc := by
    rcases List.mem_append.1 hc with hc | hc
    · exact h.comment hc
    · exact absurd (List.mem_singleton.1 hc) (by decide)

/-- A row of solid words has characters, unless there are none. -/
theorem Text.eq_nil_of_intercalate_comma (h : ∀ word ∈ words, Solid word)
    (hnone : [',', ' '].intercalate words = []) : words = [] := by
  cases words with
  | nil => rfl
  | cons word rest =>
      have hword := (h word List.mem_cons_self).nonempty
      cases rest <;> simp [hword] at hnone

/-- A dump of solid words has the words in it for all to see, whatever commas they have
themselves. -/
theorem Text.eq_of_intercalate_comma_eq (h : ∀ word ∈ words, Solid word)
    (h' : ∀ word ∈ words', Solid word)
    (hsame : [',', ' '].intercalate words = [',', ' '].intercalate words') : words = words' := by
  by_cases hnil : words = []
  · subst hnil
    exact (eq_nil_of_intercalate_comma h' hsame.symm).symm
  · have hnil' : words' ≠ [] := by
      rintro rfl
      exact hnil (eq_nil_of_intercalate_comma h hsame)
    have hcommas : ∀ rows : List (List Char), (∀ row ∈ rows, Solid row) →
        ∀ row ∈ rows.map (· ++ [',']), Solid row := by
      intro rows hrows row hrow
      obtain ⟨word, hword, rfl⟩ := List.mem_map.1 hrow
      exact (hrows word hword).comma
    have hrows : words.map (· ++ [',']) = words'.map (· ++ [',']) := calc
      words.map (· ++ [',']) =
          (runs 0 ([' '].intercalate (words.map (· ++ [','])))).map Run.text :=
        (map_text_runs_intercalate (hcommas words h) 0).symm
      _ = (runs 0 ([' '].intercalate (words'.map (· ++ [','])))).map Run.text := by
        rw [← intercalate_comma hnil, ← intercalate_comma hnil', hsame]
      _ = words'.map (· ++ [',']) := map_text_runs_intercalate (hcommas words' h') 0
    exact List.map_injective_iff.2 (List.append_left_injective [',']) hrows

end Rows

/-- States with identifiers for names, and with the same dump, have the same stack. -/
theorem State.eq_of_printStack_eq {s t : State} (hs : s.HasIdentifiers) (ht : t.HasIdentifiers)
    (h : s.printStack.2 = t.printStack.2) : s.stack = t.stack := by
  have hbracket : s.stack.text Operand.text = t.stack.text Operand.text :=
    String.append_right_inj _ |>.1 (String.append_left_inj _ |>.1 (Outcome.printed.inj h))
  have hrow : ", ".intercalate (s.stack.bottomUp.map Operand.text) =
      ", ".intercalate (t.stack.bottomUp.map Operand.text) :=
    String.append_right_inj _ |>.1 (String.append_left_inj _ |>.1 hbracket)
  have hlist := congrArg String.toList hrow
  rw [String.toList_intercalate, String.toList_intercalate] at hlist
  have htexts := List.map_injective_iff.2 (fun _ _ => String.toList_inj.1)
    (Text.eq_of_intercalate_comma_eq (Operand.solid_texts hs.legible)
      (Operand.solid_texts ht.legible) hlist)
  have hitems := Operand.eq_of_map_text_eq hs.legible ht.legible htexts
  exact congrArg Stack.mk (List.reverse_injective hitems)

section Replays

/-- Tokens that are written operands are commands that push them. -/
theorem Command.ofTokens_operands {tokens : List (Located Token)} {operands : List Operand}
    (h : tokens.map Located.item = operands.map Operand.token) :
    (ofTokens tokens).map Located.item = operands.map .push := by
  induction operands generalizing tokens with
  | nil =>
      obtain rfl : tokens = [] := List.map_eq_nil_iff.1 h
      rfl
  | cons operand operands ih =>
      obtain ⟨token, rest, rfl, hitem, hrest⟩ := List.map_eq_cons_iff.1 h
      rw [ofTokens.eq_def]
      cases operand with
      | integer value =>
          simp only [show token.item = .literal value from hitem]
          exact congrArg _ (ih hrest)
      | name x =>
          simp only [show token.item = .ident x from hitem]
          exact congrArg _ (ih hrest)

theorem Step.ofSource_of_notMem {source : String} (h : '\n' ∉ source.toList) :
    Step.ofSource source = (Line.ofString 1 source).steps := by
  by_cases hne : source.toList = []
  · simp [Step.ofSource, Line.ofSource, Line.ofString, hne, Token.scan, beforeComment, Line.steps,
      Command.ofTokens]
  · simp [Step.ofSource, Line.ofSource, Line.ofString, Text.lines_of_notMem h hne]

/-- Steps that push operands put them on the stack, and nothing else happens. -/
theorem Session.takeAll_pushes {steps : List Step} {operands : List Operand}
    (h : steps.map Step.command = operands.map .push) (session : Session) :
    session.takeAll steps =
      ({ session with
        state := { session.state with stack := session.state.stack.pushAll operands } }, none) := by
  induction operands generalizing steps session with
  | nil =>
      obtain rfl : steps = [] := List.map_eq_nil_iff.1 h
      rfl
  | cons operand operands ih =>
      obtain ⟨step, rest, rfl, hcommand, hrest⟩ := List.map_eq_cons_iff.1 h
      have htake : session.take step = ({ session with state :=
          { session.state with stack := session.state.stack.push operand } }, none) := by
        rw [Session.take, hcommand]
        rfl
      rw [takeAll, htake]
      exact ih hrest _

/-- The texts of legible operands, with spaces between them, push these operands. -/
theorem Step.commands_operands {operands : List Operand}
    (h : ∀ operand ∈ operands, operand.token.Legible) :
    (Step.ofSource (" ".intercalate (operands.map Operand.text))).map Step.command =
      operands.map .push := by
  have hsolid := Operand.solid_texts h
  have hlist : (" ".intercalate (operands.map Operand.text)).toList =
      [' '].intercalate ((operands.map Operand.text).map String.toList) :=
    String.toList_intercalate
  have hfeed : '\n' ∉ (" ".intercalate (operands.map Operand.text)).toList := by
    rw [hlist]
    exact Text.notMem_intercalate (by decide) fun word hword => (hsolid word hword).feed
  have htokens : (Token.scan (" ".intercalate (operands.map Operand.text)).toList).map
      Located.item = operands.map Operand.token := by
    rw [hlist, Token.map_item_scan_intercalate hsolid, ← Operand.map_ofString_text h, List.map_map]
    apply List.map_congr_left
    intro text _
    rw [Function.comp_apply, String.ofList_toList]
  rw [Step.ofSource_of_notMem hfeed, Line.steps, List.map_map]
  exact Command.ofTokens_operands htokens

end Replays

/-- Dumps are faithful. Whatever new sessions are made to do, all names on the stack and of
variables are identifiers. Two stacks with the same dump are equal. And the operands from the
bottom to the top, written with spaces between them, are a text that any session with an empty
stack runs to its end without an event, and that builds the very same stack there. -/
theorem Session.dumps_faithful (options options' : Options) (calls calls' : List Call) :
    let session := calls.foldl call (Session.new options)
    let other := calls'.foldl call (Session.new options')
    (∀ x, .name x ∈ session.state.stack.items → IsIdentifier x) ∧
      (∀ x ∈ session.state.vars.names, IsIdentifier x) ∧
      (session.state.printStack.2 = other.state.printStack.2 ↔
        session.state.stack = other.state.stack) ∧
      ∀ (fresh : Options) (vars : Variables) (events : Array Event),
        (Session.mk fresh ⟨.empty, vars⟩ events).execute
            (" ".intercalate (session.state.stack.bottomUp.map Operand.text)) =
          (⟨fresh, ⟨session.state.stack, if fresh.persist then vars else .empty⟩, events⟩,
            none) := by
  intro session other
  have hsession : session.state.HasIdentifiers := hasIdentifiers_calls options calls
  have hother : other.state.HasIdentifiers := hasIdentifiers_calls options' calls'
  refine ⟨hsession.stack, hsession.vars, ⟨State.eq_of_printStack_eq hsession hother, ?_⟩, ?_⟩
  · intro hsame
    rw [State.printStack, State.printStack, hsame]
  · intro fresh vars events
    have hrebuilt : (Stack.empty.pushAll session.state.stack.bottomUp) = session.state.stack := by
      have hbottomUp := Stack.bottomUp_pushAll Stack.empty session.state.stack.bottomUp
      exact congrArg Stack.mk (List.reverse_injective hbottomUp)
    rw [execute, takeAll_pushes (Step.commands_operands hsession.legible)]
    cases hpersist : fresh.persist with
    | true => simp [hrebuilt]
    | false => simp [hrebuilt, clear, State.empty]

/-- Commas and brackets in names, and digits that make a name, do not get in the way. -/
example : ((Session.new {}).execute "[a, b],\t4294967296 -07 .s").1.events =
    #[.print "[Bottom -> Top] [[a,, b],, 4294967296, -7]\n"] := by
  decide +kernel

end StraightForth
