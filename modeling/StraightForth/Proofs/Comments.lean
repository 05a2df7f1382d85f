import StraightForth.Proofs.Foretelling
import StraightForth.Proofs.Rewording
import Mathlib.Logic.Relation

/-!
# Comments and line ends

Neither a comment nor a carriage return holds a token, so both may come and go at the end of a
line. The main statement is that nobody can tell the texts apart: they run alike from every
session and compile to the same listing, line numbers and columns included.

## Implementation notes

All that is seen of a text are its filled lines, those with a token on them. A single change
happens behind the last token of one line. It leaves the filled lines as they are, and so does
a chain of changes.
-/

namespace StraightForth

namespace Text

/-- What may stand behind the last character of a line: nothing at all, or the line's end. -/
inductive AtLineEnd : List Char → Prop
  | last : AtLineEnd []
  | feed (rest : List Char) : AtLineEnd ('\n' :: rest)
  | carriage (rest : List Char) : AtLineEnd ('\r' :: '\n' :: rest)

/-- One change to the comments and line ends of a text. -/
inductive Retouch : List Char → List Char → Prop
  /-- Delete everything from a backslash to the end of its line. -/
  | uncomment {before comment rest : List Char} (hcomment : '\n' ∉ comment)
      (hrest : AtLineEnd rest) : Retouch (before ++ '\\' :: comment ++ rest) (before ++ rest)
  /-- Write a comment at the end of a line. -/
  | comment {before comment rest : List Char} (hcomment : '\n' ∉ comment)
      (hrest : AtLineEnd rest) : Retouch (before ++ rest) (before ++ '\\' :: comment ++ rest)
  /-- Put a carriage return in front of a line feed. -/
  | carriage (before rest : List Char) :
      Retouch (before ++ '\n' :: rest) (before ++ '\r' :: '\n' :: rest)
  /-- End the text with a line feed. -/
  | feed (text : List Char) : Retouch text (text ++ ['\n'])

end Text

/-- A carriage return is a blank and starts no comment. -/
theorem Text.isBlank_of_mem_carriage : ∀ c ∈ beforeComment ['\r'], isBlank c = true := by
  intro c hc
  rw [beforeComment_of_notMem (by decide), List.mem_singleton] at hc
  rw [hc]
  decide

/-- Blanks and comments add no token to the text in front of them. -/
theorem Token.scan_append_blank {back : List Char}
    (h : ∀ c ∈ beforeComment back, Text.isBlank c = true) (front : List Char) :
    scan (front ++ back) = scan front := by
  by_cases hcomment : '\\' ∈ front
  · obtain ⟨shown, rest, rfl, hshown⟩ := List.eq_append_cons_of_mem hcomment
    simp only [scan, List.append_assoc, List.cons_append,
      beforeComment_append_of_notMem hshown]
    rfl
  · have hhead : ∀ c ∈ (beforeComment back).head?, Text.isBlank c = true :=
      fun c hc => h c (List.mem_of_mem_head? hc)
    rw [scan, beforeComment_append_of_notMem hcomment, Text.runs_append hhead,
      Text.runs_of_blank h, List.append_nil, scan, beforeComment_of_notMem hcomment]

namespace Line

/-- The lines of a text with a token on them, where the first line has the given number. -/
def filled (number : Nat) (text : List Char) : List Line :=
  (((Text.lines text).zipIdx number).map fun line => ⟨line.2, Token.scan line.1⟩).filter
    fun line => !line.isEmpty

section Filled

variable {number : Nat} {text line front back rest : List Char}

/-- A text without a line feed has one line at most. -/
theorem filled_of_notMem (h : '\n' ∉ text) :
    filled number text = [⟨number, Token.scan text⟩].filter fun line => !line.isEmpty := by
  by_cases hnil : text = []
  · subst hnil
    rfl
  · rw [filled, Text.lines_of_notMem h hnil]
    rfl

/-- The first line of a text, and the lines below it. -/
theorem filled_append_feed (h : '\n' ∉ line) :
    filled number (line ++ '\n' :: rest) =
      ([⟨number, Token.scan line⟩].filter fun line => !line.isEmpty) ++
        filled (number + 1) rest := by
  rw [filled, Text.lines_append_feed_of_notMem h, List.zipIdx_cons, List.map_cons,
    ← List.singleton_append, List.filter_append]
  rfl

/-- Blanks and comments at the end of a line are not seen. -/
theorem filled_append_blank (hfront : '\n' ∉ front) (hfeed : '\n' ∉ back)
    (hback : ∀ c ∈ beforeComment back, Text.isBlank c = true) (hrest : Text.AtLineEnd rest) :
    filled number (front ++ back ++ rest) = filled number (front ++ rest) := by
  have hline : '\n' ∉ front ++ back := by simp [hfront, hfeed]
  have hscan := Token.scan_append_blank hback front
  cases hrest with
  | last =>
      rw [List.append_nil, List.append_nil, filled_of_notMem hline, filled_of_notMem hfront,
        hscan]
  | feed rest => rw [filled_append_feed hline, filled_append_feed hfront, hscan]
  | carriage rest =>
      -- The carriage return is still part of the line, as a blank at its end.
      have hlineReturn : '\n' ∉ front ++ back ++ ['\r'] := by simp [hfront, hfeed]
      have hfrontReturn : '\n' ∉ front ++ ['\r'] := by simp [hfront]
      rw [List.append_cons, List.append_cons front, filled_append_feed hlineReturn,
        filled_append_feed hfrontReturn, Token.scan_append_blank Text.isBlank_of_mem_carriage,
        Token.scan_append_blank Text.isBlank_of_mem_carriage, hscan]

/-- What is not seen behind any one line is not seen behind any text. -/
theorem filled_append_congr {tail tail' : List Char}
    (h : ∀ front number, '\n' ∉ front →
      filled number (front ++ tail) = filled number (front ++ tail'))
    (before : List Char) (number : Nat) :
    filled number (before ++ tail) = filled number (before ++ tail') := by
  -- What stands behind the last line feed of `before` is the front of the line that goes on.
  induction before using Text.lines_induction generalizing number with
  | nil => exact h [] number List.not_mem_nil
  | last line _ hline => exact h line number hline
  | line line rest hline ih =>
      rw [List.append_assoc, List.append_assoc, List.cons_append, List.cons_append,
        filled_append_feed hline, filled_append_feed hline, ih]

/-- A comment at the end of a line is not seen. -/
theorem filled_append_comment {comment : List Char} (hcomment : '\n' ∉ comment)
    (hrest : Text.AtLineEnd rest) (before : List Char) :
    filled number (before ++ '\\' :: comment ++ rest) = filled number (before ++ rest) := by
  have hfeed : '\n' ∉ '\\' :: comment := by simp [hcomment]
  have hback : ∀ c ∈ beforeComment ('\\' :: comment), Text.isBlank c = true := by
    simp [beforeComment]
  rw [List.append_assoc]
  apply filled_append_congr
  intro front number hfront
  rw [← List.append_assoc]
  exact filled_append_blank hfront hfeed hback hrest

/-- A retouched text has the same filled lines. -/
theorem filled_retouch {other : List Char} (h : Text.Retouch text other) :
    filled number other = filled number text := by
  cases h with
  | uncomment hcomment hrest => exact (filled_append_comment hcomment hrest _).symm
  | comment hcomment hrest => exact filled_append_comment hcomment hrest _
  | carriage before rest =>
      apply filled_append_congr
      intro front number hfront
      rw [List.append_cons]
      exact filled_append_blank hfront (by decide) Text.isBlank_of_mem_carriage (.feed rest)
  | feed text =>
      have hend : filled number (text ++ ['\n']) = filled number (text ++ []) := by
        apply filled_append_congr
        intro front number hfront
        rw [filled_append_feed hfront, List.append_nil, filled_of_notMem hfront]
        exact List.append_nil _
      rw [hend, List.append_nil]

/-- So does a text that is retouched again and again. -/
theorem filled_retouches {other : List Char} (h : Relation.ReflTransGen Text.Retouch text other) :
    filled number other = filled number text := by
  induction h with
  | refl => rfl
  | tail _ hretouch ih => exact (filled_retouch hretouch).trans ih

end Filled

end Line

/-- A text does what its filled lines do. -/
theorem Step.ofSource_eq_filled (source : String) :
    ofSource source = (Line.filled 1 source.toList).flatMap Line.steps := by
  have hskip (lines : List Line) :
      (lines.filter fun line => !line.isEmpty).flatMap Line.steps = lines.flatMap Line.steps := by
    induction lines with
    | nil => rfl
    | cons line rest ih =>
        rw [List.filter_cons, List.flatMap_cons]
        split
        · rw [List.flatMap_cons, ih]
        · next hempty =>
            rw [ih, Line.steps_of_isEmpty (by simpa using hempty)]
            rfl
  exact (hskip _).symm

/-- The compiler passes over all other lines. -/
theorem Assembly.compile_eq_filled (recover : Bool) (source : String) :
    compile recover source =
      ((Line.filled 1 source.toList).foldlM (Draft.line recover) Draft.empty).map
        Draft.listing := by
  have hskip (draft : Draft) (line : Line) : draft.line recover line =
      if !line.isEmpty then draft.line recover line else pure draft := by
    cases hempty : line.isEmpty with
    | true => exact if_pos hempty
    | false => rfl
  rw [Line.filled, List.foldlM_filter]
  simp only [← hskip]
  rfl

/-- Retouches are not seen. However a text's comments and line ends are changed, one after the
other, the text runs as before from every session and compiles to what it did before. -/
theorem retouched_unseen {source other : String}
    (h : Relation.ReflTransGen Text.Retouch source.toList other.toList) :
    (∀ session : Session, session.execute other = session.execute source) ∧
      ∀ recover, Assembly.compile recover other = Assembly.compile recover source := by
  have hfilled : Line.filled 1 other.toList = Line.filled 1 source.toList :=
    Line.filled_retouches h
  constructor
  · intro session
    rw [Session.execute, Session.execute, Step.ofSource_eq_filled, hfilled,
      ← Step.ofSource_eq_filled]
  · intro recover
    rw [Assembly.compile_eq_filled, hfilled, ← Assembly.compile_eq_filled]

/-- One comment goes and two others come, and the last two lines are ended otherwise. -/
theorem retouched_unseen_in_turn :
    let source := "1\\ a \\b\n\n.s"
    let other := "1\n\\c\r\n.s\\\r\n"
    Relation.ReflTransGen Text.Retouch source.toList other.toList ∧
      (∀ session : Session, session.execute other = session.execute source) ∧
      ∀ recover, Assembly.compile recover other = Assembly.compile recover source := by
  intro source other
  have hsource : source.toList =
      ['1', '\\', ' ', 'a', ' ', '\\', 'b', '\n', '\n', '.', 's'] := by simp [source]
  have hother : other.toList =
      ['1', '\n', '\\', 'c', '\r', '\n', '.', 's', '\\', '\r', '\n'] := by simp [other]
  have huncomment := @Text.Retouch.uncomment ['1'] [' ', 'a', ' ', '\\', 'b']
    ['\n', '\n', '.', 's'] (by decide) (.feed _)
  have hcarriage := Text.Retouch.carriage ['1', '\n'] ['.', 's']
  have hcomment := @Text.Retouch.comment ['1', '\n'] ['c'] ['\r', '\n', '.', 's'] (by decide)
    (.carriage _)
  have hlast := @Text.Retouch.comment ['1', '\n', '\\', 'c', '\r', '\n', '.', 's'] ['\r'] []
    (by decide) .last
  have hfeed := Text.Retouch.feed ['1', '\n', '\\', 'c', '\r', '\n', '.', 's', '\\', '\r']
  have hchain : Relation.ReflTransGen Text.Retouch source.toList other.toList := by
    rw [hsource, hother]
    exact .head huncomment (.head hcarriage (.head hcomment (.head hlast (.single hfeed))))
  exact ⟨hchain, retouched_unseen hchain⟩

end StraightForth
