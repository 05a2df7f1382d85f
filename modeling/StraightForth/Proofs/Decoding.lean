import StraightForth.Diagnostic
import StraightForth.Text.Decimal
import Mathlib.Data.List.Basic

/-!
# Reports are read back

A report is put together from its details in any order, and its text has them all. The parts of
the text are told apart by how they start: a headline is no start of another one, a place has
numbers and brackets only, and the message comes last. The main statement says what a report is
made of, and that a reader of texts finds all of it again.
-/

namespace StraightForth

section Details

/-- What can be added to a report. -/
inductive Detail
  | line (number : Option Nat)
  | column (span : Span)
  | message (text : String)
deriving DecidableEq

namespace Detail

/-- The line of a detail, if it gives one. -/
def line? : Detail → Option Nat
  | .line number => number
  | .column _ | .message _ => none

/-- The column of a detail, if it gives one that can be told from no column. -/
def column? : Detail → Option Span
  | .column span => if span = Span.unset then none else some span
  | .line _ | .message _ => none

/-- The message of a detail. -/
def message? : Detail → Option String
  | .message text => some text
  | .line _ | .column _ => none

end Detail

namespace Diagnostic

/-- Add a detail to a report. -/
def add (d : Diagnostic) : Detail → Diagnostic
  | .line number => d.atLine number
  | .column span => d.atColumn span
  | .message text => d.withMessage text

/-- A report of a kind with some details, added in their order. -/
def build (kind : DiagnosticKind) (details : List Detail) : Diagnostic :=
  details.foldl add (ofKind kind)

/-- Details complete a report: the first line and the first column stay, and so does the last
message. -/
theorem foldl_add (d : Diagnostic) (details : List Detail) :
    details.foldl add d =
      ⟨d.kind, d.line.or (details.filterMap Detail.line?).head?,
        if d.column = Span.unset then (details.filterMap Detail.column?).head?.getD Span.unset
        else d.column,
        (details.filterMap Detail.message?).getLast?.getD d.message⟩ := by
  induction details generalizing d with
  | nil =>
      obtain ⟨kind, line, column, message⟩ := d
      by_cases hcolumn : column = Span.unset
      · simp [hcolumn]
      · simp [hcolumn]
  | cons detail rest ih =>
      obtain ⟨kind, line, column, message⟩ := d
      simp only [List.foldl_cons, ih, List.filterMap_cons]
      cases detail with
      | line number =>
          simp only [add, atLine, Detail.line?, Detail.column?, Detail.message?]
          cases line with
          | none => cases number <;> rfl
          | some set => rfl
      | column span =>
          simp only [add, atColumn, Detail.line?, Detail.column?, Detail.message?]
          by_cases hcolumn : column = Span.unset
          · by_cases hspan : span = Span.unset
            · simp only [hcolumn, hspan, if_true]
            · simp only [hcolumn, hspan, if_true, if_false, List.head?_cons, Option.getD_some]
          · simp only [hcolumn, if_false]
      | message text =>
          simp only [add, withMessage, Detail.line?, Detail.column?, Detail.message?,
            List.getLast?_cons, Option.getD_some]
          rfl

end Diagnostic

end Details

section Reading

/-- A number at the start of a text, and what stands behind it. -/
def Decimal.leading? (text : List Char) : Option (Nat × List Char) :=
  (natural? (text.takeWhile Char.isDigit)).map fun n => (n, text.dropWhile Char.isDigit)

/-- A column at the start of a text, and what stands behind it. -/
def Span.leading? (text : List Char) : Option (Span × List Char) := do
  let (start, text) ← Decimal.leading? (← text.dropPrefix? "(".toList)
  let (stop, text) ← Decimal.leading? (← text.dropPrefix? "..".toList)
  return (⟨start, stop⟩, ← text.dropPrefix? ")".toList)

/-- The kinds of reports. -/
def DiagnosticKind.all : List DiagnosticKind :=
  [missingIdentifier, invalidName, stackUnderflow, undefinedVariable, invalidValue, typeMismatch,
    internalError, fileNotFound]

/-- A headline at the start of a text, and what stands behind it. -/
def DiagnosticKind.leading? (text : List Char) : Option (DiagnosticKind × List Char) :=
  all.findSome? fun kind => (text.dropPrefix? kind.text.toList).map fun rest => (kind, rest)

/-- Something behind a space, if it is there, and what stands behind it. -/
def Text.spaced {α : Type} (leading? : List Char → Option (α × List Char)) (text : List Char) :
    Option α × List Char :=
  match text.dropPrefix? " ".toList >>= leading? with
  | some (item, rest) => (some item, rest)
  | none => (none, text)

/-- Read a report. -/
def Diagnostic.ofText? (text : String) : Option Diagnostic := do
  let (kind, rest) ← DiagnosticKind.leading? text.toList
  let (line, rest) := Text.spaced Decimal.leading? ((rest.dropPrefix? " IN".toList).getD rest)
  let (column, rest) := Text.spaced Span.leading? rest
  let message := (rest.dropPrefix? "; ".toList).elim "" String.ofList
  return ⟨kind, line, column.getD Span.unset, message⟩

/-- A text behind its own start. -/
theorem Text.dropPrefix?_append (start rest : List Char) :
    (start ++ rest).dropPrefix? start = some rest :=
  List.dropPrefix?_append_of_beq rest (beq_self_eq_true start)

/-- A number ends where no digit comes next. -/
theorem Decimal.leading?_append (n : Nat) (rest : List Char)
    (h : ∀ c ∈ rest.head?, c.isDigit = false) :
    leading? (n.repr.toList ++ rest) = some (n, rest) := by
  have hdigits : ∀ c ∈ Nat.toDigits 10 n, c.isDigit = true :=
    List.all_eq_true.1 (all_isDigit_toDigits n)
  have hrest : rest.takeWhile Char.isDigit = [] ∧ rest.dropWhile Char.isDigit = rest := by
    cases rest with
    | nil => exact ⟨rfl, rfl⟩
    | cons c later =>
        have hc := h c rfl
        simp [hc]
  rw [leading?, Nat.toList_repr, List.takeWhile_append_of_pos hdigits,
    List.dropWhile_append_of_pos hdigits, hrest.1, hrest.2, List.append_nil, natural?_toDigits]
  rfl

theorem Span.leading?_append (span : Span) (rest : List Char) :
    leading? (span.text.toList ++ rest) = some (span, rest) := by
  obtain ⟨start, stop⟩ := span
  have htext : (Span.mk start stop).text.toList ++ rest = "(".toList ++ (start.repr.toList ++
      ("..".toList ++ (stop.repr.toList ++ (")".toList ++ rest)))) := by
    simp [Span.text]
  have hstart := Decimal.leading?_append start
    ("..".toList ++ (stop.repr.toList ++ (")".toList ++ rest))) (by simp)
  have hstop := Decimal.leading?_append stop (")".toList ++ rest) (by simp)
  simp only [leading?, htext, Text.dropPrefix?_append, hstart, hstop, Option.bind_eq_bind,
    Option.bind_some, Option.pure_def]

/-- No headline is the start of another one. -/
theorem DiagnosticKind.leading?_append (kind : DiagnosticKind) (rest : List Char) :
    leading? (kind.text.toList ++ rest) = some (kind, rest) := by
  cases kind <;> simp [leading?, all, text, List.dropPrefix?]

/-- A part that is not there is not read, as what follows does not start like it. -/
theorem Text.spaced_absent {α : Type} {leading? : List Char → Option (α × List Char)}
    {text : List Char} (h : ∀ rest, text = ' ' :: rest → leading? rest = none) :
    spaced leading? text = (none, text) := by
  cases text with
  | nil => rfl
  | cons c rest =>
      by_cases hc : c = ' '
      · subst hc
        have hrest := h rest rfl
        simp [spaced, List.dropPrefix?, hrest]
      · simp [spaced, List.dropPrefix?, hc]

/-- A part that is there is read, with the space in front of it. -/
theorem Text.spaced_present {α : Type} {leading? : List Char → Option (α × List Char)}
    {text rest : List Char} {item : α} (h : leading? text = some (item, rest)) :
    spaced leading? (' ' :: text) = (some item, rest) := by
  simp [spaced, List.dropPrefix?, h]

namespace Diagnostic

/-- The word in front of a place, if there is one. -/
def placeWord (d : Diagnostic) : List Char := if d.place = "" then [] else " IN".toList

/-- The line of a report in its text. -/
def lineText : Option Nat → List Char
  | some number => ' ' :: number.repr.toList
  | none => []

/-- The column of a report in its text. -/
def columnText (span : Span) : List Char :=
  if span = Span.unset then [] else ' ' :: span.text.toList

/-- The message of a report in its text. -/
def messageText (message : String) : List Char :=
  if message = "" then [] else "; ".toList ++ message.toList

theorem toList_place (d : Diagnostic) :
    d.place.toList = lineText d.line ++ columnText d.column := by
  obtain ⟨kind, line, column, message⟩ := d
  by_cases hcolumn : column = Span.unset
  · cases line <;> simp [place, lineText, columnText, hcolumn]
  · cases line <;> simp [place, lineText, columnText, hcolumn]

theorem toList_text (d : Diagnostic) :
    d.text.toList = d.kind.text.toList ++ (d.placeWord ++
      (lineText d.line ++ (columnText d.column ++ messageText d.message))) := by
  rw [← List.append_assoc (lineText d.line), ← toList_place]
  by_cases hplace : d.place = ""
  · by_cases hmessage : d.message = "" <;> simp [text, placeWord, messageText, hplace, hmessage]
  · by_cases hmessage : d.message = "" <;> simp [text, placeWord, messageText, hplace, hmessage]

/-- A message in a text starts with a semicolon. -/
theorem eq_semicolon_of_messageText {message : String} {c : Char} {rest : List Char}
    (h : messageText message = c :: rest) : c = ';' := by
  by_cases hmessage : message = ""
  · simp [messageText, hmessage] at h
  · rw [messageText, if_neg hmessage] at h
    injection h with hc
    exact hc.symm

/-- A message is all that is left. -/
theorem message_read (message : String) :
    ((messageText message).dropPrefix? "; ".toList).elim "" String.ofList = message := by
  by_cases hmessage : message = ""
  · subst hmessage
    rfl
  · rw [messageText, if_neg hmessage, Text.dropPrefix?_append]
    exact String.ofList_toList

/-- A message is not taken for a column. -/
theorem column_read (column : Span) (message : String) :
    Text.spaced Span.leading? (columnText column ++ messageText message) =
      (if column = Span.unset then none else some column, messageText message) := by
  by_cases hcolumn : column = Span.unset
  · rw [columnText, if_pos hcolumn, if_pos hcolumn, List.nil_append]
    apply Text.spaced_absent
    intro rest hrest
    exact absurd (eq_semicolon_of_messageText hrest) (by decide)
  · rw [columnText, if_neg hcolumn, if_neg hcolumn]
    exact Text.spaced_present (Span.leading?_append column (messageText message))

/-- Neither a column nor a message is taken for a line, or for more digits of it. -/
theorem line_read (line : Option Nat) (column : Span) (message : String) :
    Text.spaced Decimal.leading?
        (lineText line ++ (columnText column ++ messageText message)) =
      (line, columnText column ++ messageText message) := by
  cases line with
  | none =>
      apply Text.spaced_absent
      intro rest hrest
      by_cases hcolumn : column = Span.unset
      · rw [lineText, columnText, if_pos hcolumn] at hrest
        exact absurd (eq_semicolon_of_messageText hrest) (by decide)
      · rw [lineText, columnText, if_neg hcolumn] at hrest
        injection hrest with _ hrest
        simp [← hrest, Span.text, Decimal.leading?, Decimal.natural?]
  | some number =>
      apply Text.spaced_present
      apply Decimal.leading?_append
      intro c hc
      by_cases hcolumn : column = Span.unset
      · rw [columnText, if_pos hcolumn, List.nil_append] at hc
        obtain ⟨rest, hrest⟩ := List.head?_eq_some_iff.1 hc
        rw [eq_semicolon_of_messageText hrest]
        decide
      · rw [columnText, if_neg hcolumn] at hc
        injection hc with hc
        rw [← hc]
        decide

/-- The word in front of a place is read exactly if there is a place. -/
theorem place_read (d : Diagnostic) {rest : List Char}
    (h : d.place = "" → rest = messageText d.message) :
    ((d.placeWord ++ rest).dropPrefix? " IN".toList).getD (d.placeWord ++ rest) = rest := by
  by_cases hplace : d.place = ""
  · rw [placeWord, if_pos hplace, List.nil_append, h hplace]
    cases hmessage : messageText d.message with
    | nil => rfl
    | cons c later =>
        rw [eq_semicolon_of_messageText hmessage]
        rfl
  · rw [placeWord, if_neg hplace, Text.dropPrefix?_append, Option.getD_some]

/-- A report is read back from its text. -/
theorem ofText?_text (d : Diagnostic) : ofText? d.text = some d := by
  have hnowhere (hplace : d.place = "") :
      lineText d.line ++ (columnText d.column ++ messageText d.message) =
        messageText d.message := by
    have hnone : lineText d.line ++ columnText d.column = [] := by
      rw [← toList_place, hplace]
      rfl
    rw [← List.append_assoc, hnone, List.nil_append]
  have hplace := d.place_read hnowhere
  have hcolumn : (if d.column = Span.unset then none else some d.column).getD Span.unset =
      d.column := by
    split
    · next hunset => rw [hunset]; rfl
    · rfl
  simp only [ofText?, toList_text, DiagnosticKind.leading?_append, hplace, line_read,
    column_read, message_read, hcolumn, Option.bind_eq_bind, Option.bind_some, Option.pure_def]

/-- A report has the first line given, the first column given and the last message given, in
whatever order they come, and its text tells it from every other report. -/
theorem build_read_back (kind : DiagnosticKind) (details : List Detail) :
    build kind details = ⟨kind, (details.filterMap Detail.line?).head?,
        (details.filterMap Detail.column?).head?.getD Span.unset,
        (details.filterMap Detail.message?).getLast?.getD ""⟩ ∧
      ofText? (build kind details).text = some (build kind details) ∧
      ∀ (kind' : DiagnosticKind) (details' : List Detail),
        (build kind' details').text = (build kind details).text ↔
          build kind' details' = build kind details := by
  refine ⟨?_, ofText?_text _, ?_⟩
  · rw [build, foldl_add]
    simp [ofKind]
  · intro kind' details'
    constructor
    · intro htext
      have hread := ofText?_text (build kind' details')
      rw [htext, ofText?_text] at hread
      exact (Option.some.inj hread).symm
    · intro heq
      rw [heq]

/-- A message that looks like a place is told from a place. -/
example :
    (build .invalidName [.message "x IN 4 (5..6); y", .line none, .line (some 7)]).text =
      "INVALID NAME IN 7; x IN 4 (5..6); y" := by
  decide

end Diagnostic

end Reading

end StraightForth
