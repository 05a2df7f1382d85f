import StraightForth.Proofs.Columns
import StraightForth.Proofs.Pieces
import StraightForth.Proofs.Visits

/-!
# Joined lines

Only a declaring word cares where its line ends: it never takes a token from the next one. The
main statement is that two lines can be joined by a space if the first has no comment and does
not end in a declaring word that is left without a token. The joined text runs and compiles as
the original, and only the places of diagnostics change.

## Implementation notes

Joining moves every token behind the line end, but it keeps the commands and their order. So
texts are compared by their commands without columns. A row of tokens gives the commands of its
two halves unless a declaring word stands across the cut.
-/

namespace StraightForth

/-- Whether the last declaring word of a row is left without a token to take, when each of them
takes the token behind it. -/
def Token.dangling : List Token → Bool
  | [] => false
  | [token] => token = .word .declare
  | token :: next :: rest =>
      if token = .word .declare then dangling rest else dangling (next :: rest)

section Places

/-- The diagnostic without its line and column. -/
def Diagnostic.forgetPlace (report : Diagnostic) : Diagnostic :=
  ⟨report.kind, none, Span.unset, report.message⟩

/-- The event without its place, if it has one. -/
def Event.forgetPlace : Event → Event
  | .print text => .print text
  | .diagnostic report => .diagnostic report.forgetPlace

theorem Event.isFatal_eq_of_forgetPlace {event other : Event}
    (h : event.forgetPlace = other.forgetPlace) : event.isFatal = other.isFatal := by
  have hplace (event : Event) : event.forgetPlace.isFatal = event.isFatal := by
    cases event <;> rfl
  rw [← hplace event, h, hplace]

/-- Faults of the same wording are reported alike but for the place. -/
theorem Fault.forgetPlace_reportAt {fault other : Fault} (hkind : fault.kind = other.kind)
    (hmessage : fault.message = other.message) (line line' : Nat) (column column' : Span) :
    (fault.reportAt line column).forgetPlace = (other.reportAt line' column').forgetPlace := by
  rw [reportAt_eq, reportAt_eq, Diagnostic.forgetPlace, Diagnostic.forgetPlace, hkind, hmessage]

end Places

section Rows

namespace Command

/-- The commands of a row of tokens that stand nowhere. -/
def ofRow (row : List Token) : List Command :=
  (ofTokens (row.map (Located.mk Span.unset))).map Located.item

/-- The commands of a line are those of its row of tokens, but for their columns. -/
theorem map_forgetColumn_ofTokens (tokens : List (Located Token)) :
    (ofTokens tokens).map (fun command => command.item.forgetColumn) =
      ofRow (tokens.map Located.item) := by
  have hrow := congrArg (List.map Located.item) (ofTokens_forgetColumn tokens)
  rw [List.map_map] at hrow
  rw [ofRow, List.map_map]
  exact hrow.symm

/-- A token that declares nothing is a command by itself. -/
theorem exists_ofRow_cons {token : Token} (h : token ≠ .word .declare) :
    ∃ command, ∀ rest, ofRow (token :: rest) = command :: ofRow rest := by
  cases token with
  | literal value => exact ⟨.push (.integer value), fun _ => rfl⟩
  | ident name => exact ⟨.push (.name name), fun _ => rfl⟩
  | word word =>
      cases hprimitive : word.primitive? with
      | some primitive =>
          refine ⟨.perform primitive, fun rest => ?_⟩
          rw [ofRow, List.map_cons, ofTokens.eq_def]
          simp [ofRow, hprimitive]
      | none => exact (h (congrArg Token.word (Word.primitive?_eq_none_iff.1 hprimitive))).elim

/-- A declaring word and the token it takes are one command. -/
theorem ofRow_declare (target : Token) (rest : List Token) :
    ofRow (.word .declare :: target :: rest) =
      declaration ⟨Span.unset, target⟩ :: ofRow rest := rfl

/-- A row of tokens can be cut where no declaring word is left without its token. -/
theorem ofRow_append {row : List Token} (h : Token.dangling row = false) (more : List Token) :
    ofRow (row ++ more) = ofRow row ++ ofRow more := by
  fun_induction Token.dangling row with
  | case1 => rfl
  | case2 token =>
      obtain ⟨command, hcommand⟩ := exists_ofRow_cons (of_decide_eq_false h)
      rw [List.singleton_append, hcommand, hcommand]
      rfl
  | case3 next rest ih =>
      rw [List.cons_append, List.cons_append, ofRow_declare, ofRow_declare, ih h,
        List.cons_append]
  | case4 token next rest hdeclare ih =>
      obtain ⟨command, hcommand⟩ := exists_ofRow_cons hdeclare
      rw [List.cons_append, hcommand, hcommand, ih h, List.cons_append]

end Command

/-- The tokens of a line in a row. -/
def Token.row (text : List Char) : List Token := (scan text).map Located.item

/-- The tokens of a line are read from the texts of its runs. -/
theorem Token.row_eq (text : List Char) :
    row text = ((Text.runs 0 (beforeComment text)).map Text.Run.text).map
      fun word => ofString (String.ofList word) := by
  rw [row, scan, List.map_map, List.map_map]
  rfl

/-- A blank keeps the tokens before it and behind it apart, unless a comment takes it. -/
theorem Token.row_append_blank {front : List Char} {c : Char} (h : '\\' ∉ front)
    (hc : Text.isBlank c = true) (back : List Char) :
    row (front ++ c :: back) = row front ++ row back := by
  have hcomment : c ≠ '\\' := by
    rintro rfl
    exact absurd hc (by decide)
  have hback : beforeComment (c :: back) = c :: beforeComment back := by
    simp [beforeComment, hcomment]
  have hhead : ∀ d ∈ (c :: beforeComment back).head?, Text.isBlank d = true := by
    rintro d ⟨⟩
    exact hc
  rw [row_eq, beforeComment_append_of_notMem h, hback, Text.runs_append hhead,
    Text.runs_blank hc, List.map_append, List.map_append,
    Text.map_text_runs (0 + front.length + 1) 0, row_eq, row_eq, beforeComment_of_notMem h]

end Rows

section Texts

/-- A line that can be joined with the one below it: it has no comment, and none of its
declaring words is left without a token. -/
structure Text.Joinable (line : List Char) : Prop where
  feed : '\n' ∉ line
  comment : '\\' ∉ line
  complete : Token.dangling (Token.row line) = false

namespace Command

/-- The commands of a text without their columns. -/
def ofText (text : List Char) : List Command :=
  (Text.lines text).flatMap fun line => ofRow (Token.row line)

theorem map_command_ofSource (source : String) :
    (Step.ofSource source).map (fun step => step.command.forgetColumn) =
      ofText source.toList := by
  have hline (line : Line) : line.steps.map (fun step => step.command.forgetColumn) =
      ofRow (line.tokens.map Located.item) := by
    rw [Line.steps, List.map_map, ← map_forgetColumn_ofTokens]
    rfl
  calc
    (Step.ofSource source).map (fun step => step.command.forgetColumn)
      = (Line.ofSource source).flatMap fun line => ofRow (line.tokens.map Located.item) := by
        rw [Step.ofSource, List.map_flatMap]
        simp only [hline]
    _ = (((Text.lines source.toList).zipIdx 1).map Prod.fst).flatMap
          fun line => ofRow (Token.row line) := by
        rw [Line.ofSource, List.flatMap_map, List.flatMap_map]
        rfl
    _ = ofText source.toList := by rw [List.zipIdx_map_fst, ofText]

section

variable {text line rest : List Char}

/-- A text without a line feed has one line at most. -/
theorem ofText_of_notMem (h : '\n' ∉ text) : ofText text = ofRow (Token.row text) := by
  by_cases hnil : text = []
  · subst hnil
    rfl
  · rw [ofText, Text.lines_of_notMem h hnil]
    exact List.append_nil _

theorem ofText_append_feed (first second : List Char) :
    ofText (first ++ '\n' :: second) = ofText first ++ ofText second := by
  rw [ofText, Text.lines_append_feed, List.flatMap_append]
  rcases Text.lines_feed first with h | h
  · rw [h]
    rfl
  · rw [h, List.flatMap_append]
    exact congrArg (· ++ ofText second) (List.append_nil _)

/-- A blank behind a joinable line has the part of a line feed. -/
theorem ofText_append_blank (h : Text.Joinable line) {c : Char} (hc : Text.isBlank c = true)
    (hfeed : c ≠ '\n') (rest : List Char) :
    ofText (line ++ c :: rest) = ofText line ++ ofText rest := by
  have hwhole {first : List Char} (hfirst : '\n' ∉ first) :
      ofText (line ++ c :: first) = ofText line ++ ofText first := by
    have hnone : '\n' ∉ line ++ c :: first := by simp [h.feed, hfirst, hfeed.symm]
    rw [ofText_of_notMem hnone, Token.row_append_blank h.comment hc, ofRow_append h.complete,
      ofText_of_notMem h.feed, ofText_of_notMem hfirst]
  -- The joined line goes up to the first line feed behind it, or to the end of the text.
  by_cases hmem : '\n' ∈ rest
  · obtain ⟨first, later, rfl, hfirst⟩ := List.eq_append_cons_of_mem hmem
    rw [← List.cons_append, ← List.append_assoc, ofText_append_feed, hwhole hfirst,
      ofText_append_feed, List.append_assoc]
  · exact hwhole hmem

/-- Whether a space or a line end stands behind a joinable line, the commands are the same. -/
theorem ofText_joined {upper line lineEnd rest : String}
    (hupper : upper = "" ∨ ∃ above, upper = above ++ "\n") (h : Text.Joinable line.toList)
    (hend : lineEnd = "\n" ∨ lineEnd = "\r\n") :
    ofText (upper ++ line ++ " " ++ rest).toList =
      ofText (upper ++ line ++ lineEnd ++ rest).toList := by
  have hbelow : ofText (line.toList ++ ' ' :: rest.toList) =
      ofText (line.toList ++ (lineEnd.toList ++ rest.toList)) := by
    rw [ofText_append_blank h (by decide) (by decide)]
    rcases hend with rfl | rfl
    · exact (ofText_append_feed line.toList rest.toList).symm
    · exact (ofText_append_blank h (by decide) (by decide) ('\n' :: rest.toList)).symm
  rcases hupper with rfl | ⟨above, rfl⟩
  · simpa using hbelow
  · simpa [ofText_append_feed] using hbelow

end

end Command

end Texts

section Meaning

/-- Turns with the same commands are visited with the same shapes. Their code is the same, and
so are their reports but for the places. -/
theorem Assembly.Shape.visits_of_commands {turns turns' : List Turn}
    (h : List.Forall₂ (fun turn turn' => turn.command.forgetColumn = turn'.command.forgetColumn)
      turns turns') (shape : Shape) :
    shape.after turns = shape.after turns' ∧
      ((shape.visits turns).flatMap fun v => v.emission.lines) =
        ((shape.visits turns').flatMap fun v => v.emission.lines) ∧
      ((shape.visits turns).filterMap fun v => v.report?.map Diagnostic.forgetPlace) =
        ((shape.visits turns').filterMap fun v => v.report?.map Diagnostic.forgetPlace) := by
  induction h generalizing shape with
  | nil => exact ⟨rfl, rfl, rfl⟩
  | @cons turn turn' rest rest' hcommand _ ih =>
      obtain ⟨hshape, hlines, hfault⟩ := shape.execute_of_forgetColumn hcommand
      obtain ⟨hafter, hcode, hreports⟩ := ih (shape.execute turn.command).shape
      have hreport : (Visit.report? ⟨shape, turn⟩).map Diagnostic.forgetPlace =
          (Visit.report? ⟨shape, turn'⟩).map Diagnostic.forgetPlace := by
        simp only [Visit.report?, Visit.emission]
        generalize (shape.execute turn.command).fault = fault at hfault ⊢
        generalize (shape.execute turn'.command).fault = fault' at hfault ⊢
        cases hfault with
        | none => rfl
        | some h => exact congrArg some (Fault.forgetPlace_reportAt h.1 h.2 _ _ _ _)
      rw [hshape] at hafter hcode hreports
      rw [visits, visits, after_cons, after_cons, hshape]
      refine ⟨hafter, ?_, ?_⟩
      · rw [List.flatMap_cons, List.flatMap_cons, hcode]
        exact congrArg (· ++ _) hlines
      · rw [List.filterMap_cons, List.filterMap_cons, hreport, hreports]

section

variable {source source' : String}
variable (h : Command.ofText source.toList = Command.ofText source'.toList)

include h

theorem Step.forall₂_of_commands :
    List.Forall₂ (fun step other => step.command.forgetColumn = other.command.forgetColumn)
      (ofSource source) (ofSource source') := by
  rw [forall₂_iff_map_eq, Command.map_command_ofSource, Command.map_command_ofSource, h]

/-- Texts with the same commands run alike, wherever their commands stand. -/
theorem Session.parallel_of_commands (session : Session) :
    Parallel Eq (fun event event' => event.forgetPlace = event'.forgetPlace)
      session.events.toList session.events.toList (session.execute source)
      (session.execute source') := by
  refine parallel_execute (fun _ _ => Event.isFatal_eq_of_forgetPlace) rfl rfl rfl ?_
  apply (Step.forall₂_of_commands h).imp
  intro step other hcommand
  apply Step.corresponds_of_command hcommand
  · intro text
    rfl
  · intro fault fault' hkind hmessage
    exact congrArg Event.diagnostic (Fault.forgetPlace_reportAt hkind hmessage _ _ _ _)

/-- Texts with the same commands compile to the same code, data and cells. -/
theorem Assembly.both_compile_of_commands (recover : Bool) :
    Both (fun listing listing' => listing.assembled = listing'.assembled ∧
        listing.data = listing'.data ∧ listing.cells = listing'.cells ∧
        listing.errors.map Diagnostic.forgetPlace = listing'.errors.map Diagnostic.forgetPlace)
      (fun report report' => report.forgetPlace = report'.forgetPlace)
      (compile recover source) (compile recover source') := by
  have hturns : List.Forall₂
      (fun turn turn' => turn.command.forgetColumn = turn'.command.forgetColumn)
      (Turn.ofSource source) (Turn.ofSource source') := by
    have hsteps := Step.forall₂_of_commands h
    rwa [← Turn.ofSource_map_step, ← Turn.ofSource_map_step, List.forall₂_map_left_iff,
      List.forall₂_map_right_iff] at hsteps
  obtain ⟨hafter, hcode, hreports⟩ := Shape.empty.visits_of_commands hturns
  have hresult := (Session.parallel_of_commands h (Session.new ⟨recover, true⟩)).result
  rcases compile_cases ⟨recover, true⟩ source with ⟨listing, hcompile, hrun, _⟩ |
      ⟨fatal, hcompile, hrun⟩ <;>
    rcases compile_cases ⟨recover, true⟩ source' with ⟨listing', hcompile', hrun', _⟩ |
      ⟨fatal', hcompile', hrun'⟩ <;>
    rw [hrun, hrun'] at hresult
  · have hpage := compile_eq_page hcompile
    have hpage' := compile_eq_page hcompile'
    rw [hcompile, hcompile']
    refine .ok ⟨?_, ?_, ?_, ?_⟩
    · rw [assembled_eq_visits hcompile, assembled_eq_visits hcompile', hcode]
    · rw [Listing.data, Listing.data, hpage.2.1, hpage'.2.1, hafter]
    · rw [Listing.cells, Listing.cells, hpage.2.2, hpage'.2.2, hafter]
    · rw [errors_eq_visits hcompile, errors_eq_visits hcompile', List.map_filterMap,
        List.map_filterMap, hreports]
  · cases hresult
  · cases hresult
  · rw [hcompile, hcompile']
    cases hresult with
    | some hreport => exact .error (Event.diagnostic.inj hreport)

end

open Assembly in
/-- A line and the one below it can be joined by a space, unless the first has a comment or ends
in a declaring word without a token. The joined text leaves every session as the original does,
with the same prints and diagnostics in the same order and with the same ending; and it
compiles to the same code, data and cells, or ends the compilation as the original does. Only
the lines and columns of the diagnostics are others. -/
theorem joined_keeps_meaning {upper line lineEnd rest : String}
    (hupper : upper = "" ∨ ∃ above, upper = above ++ "\n") (h : Text.Joinable line.toList)
    (hend : lineEnd = "\n" ∨ lineEnd = "\r\n") :
    let joined := upper ++ line ++ " " ++ rest
    let apart := upper ++ line ++ lineEnd ++ rest
    (∀ session : Session,
      let after := session.execute joined
      let before := session.execute apart
      after.1.options = before.1.options ∧ after.1.state = before.1.state ∧
        (∃ new new', after.1.events.toList = session.events.toList ++ new ∧
          before.1.events.toList = session.events.toList ++ new' ∧
          new.map Event.forgetPlace = new'.map Event.forgetPlace) ∧
        after.2.map Diagnostic.forgetPlace = before.2.map Diagnostic.forgetPlace) ∧
    ∀ recover,
      match compile recover joined, compile recover apart with
      | .ok listing, .ok listing' =>
          listing.assembled = listing'.assembled ∧ listing.data = listing'.data ∧
            listing.cells = listing'.cells ∧
            listing.errors.map Diagnostic.forgetPlace = listing'.errors.map Diagnostic.forgetPlace
      | .error report, .error report' => report.forgetPlace = report'.forgetPlace
      | _, _ => False := by
  intro joined apart
  have hcommands : Command.ofText joined.toList = Command.ofText apart.toList :=
    Command.ofText_joined hupper h hend
  constructor
  · intro session after before
    have hruns : Parallel Eq (fun event event' => event.forgetPlace = event'.forgetPlace)
        session.events.toList session.events.toList after before :=
      Session.parallel_of_commands hcommands session
    obtain ⟨new, new', hnew, hnew', hevents⟩ := hruns.events
    refine ⟨hruns.options, hruns.state, ⟨new, new', hnew, hnew', forall₂_iff_map_eq.1 hevents⟩, ?_⟩
    exact hruns.map_result_eq fun _ _ halike => Event.diagnostic.inj halike
  · intro recover
    have hboth := both_compile_of_commands hcommands recover
    generalize compile recover joined = result at hboth ⊢
    generalize compile recover apart = result' at hboth ⊢
    cases hboth with
    | ok hlistings => exact hlistings
    | error hreports => exact hreports

/-- A declaring word that takes another one is not left without a token. Here the mismatch that
ends both runs moves up by a line. -/
theorem joined_keeps_meaning_at_mismatch :
    let joined := "1 .\n" ++ "variable variable x 2" ++ " " ++ "+ drop"
    let apart := "1 .\n" ++ "variable variable x 2" ++ "\r\n" ++ "+ drop"
    Text.Joinable "variable variable x 2".toList ∧
      (∀ session : Session, (session.execute joined).1.state = (session.execute apart).1.state) ∧
      ((Session.new {}).execute joined).2 = some ⟨.typeMismatch, some 2, ⟨22, 23⟩,
        "expected integer, found x"⟩ ∧
      ((Session.new {}).execute apart).2 = some ⟨.typeMismatch, some 3, ⟨0, 1⟩,
        "expected integer, found x"⟩ := by
  have hupper : "1 .\n" = "" ∨ ∃ above, "1 .\n" = above ++ "\n" :=
    .inr ⟨"1 .", by decide⟩
  have hline : Text.Joinable "variable variable x 2".toList := by
    constructor
    · decide
    · decide
    · decide +kernel
  refine ⟨hline, ?_, by decide +kernel, by decide +kernel⟩
  intro session
  exact ((joined_keeps_meaning hupper hline (.inr rfl)).1 session).2.1

/-- A declaring word that is left without a token would take one from the next line. -/
example :
    ((Session.new {}).execute "variable x").1.state ≠
      ((Session.new {}).execute "variable\nx").1.state := by
  decide +kernel

end Meaning

end StraightForth
