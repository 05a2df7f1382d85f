import StraightForth.Proofs.Likeness
import StraightForth.Proofs.Spelling

/-!
# Words replaced in a text

The words in front of comments are replaced by others, and everything else is copied. If words
are replaced by words, the new text has the same lines with the replaced words in place of the
old ones. The main statement is that its lines are alike to those of the old text when each
token is alike to the one that replaces it.

## Implementation notes

The replacement reads a text character by character and knows nothing of lines, runs and
tokens. It remembers the word that is being read, or that a comment is.
-/

namespace StraightForth

namespace Text

/-- What replaces a word that has come to its end, if there is one. -/
def flush (f : List Char → List Char) (word : List Char) : List Char :=
  if word = [] then [] else f word

/-- Replace the words of a text that stand in front of comments. The mode is the word that is
being read, or none inside a comment. -/
def reword (f : List Char → List Char) : Option (List Char) → List Char → List Char
  | none, [] => []
  | none, c :: text => c :: reword f (if c = '\n' then some [] else none) text
  | some word, [] => flush f word
  | some word, c :: text =>
      if c = '\\' then flush f word ++ c :: reword f none text
      else if isBlank c then flush f word ++ c :: reword f (some []) text
      else reword f (some (word ++ [c])) text

/-- The characters of a word, as far as it has been read. -/
def Plain (word : List Char) : Prop := ∀ c ∈ word, isBlank c = false ∧ c ≠ '\\'

theorem solid_iff {word : List Char} : Solid word ↔ word ≠ [] ∧ Plain word := by
  constructor
  · intro h
    refine ⟨h.nonempty, fun c hc => ⟨h.visible c hc, ?_⟩⟩
    rintro rfl
    exact h.comment hc
  · rintro ⟨hne, hplain⟩
    exact ⟨hne, fun c hc => (hplain c hc).1, fun hc => (hplain _ hc).2 rfl⟩

theorem plain_nil : Plain [] := fun _ hc => absurd hc List.not_mem_nil

theorem Plain.push {word : List Char} (h : Plain word) {c : Char}
    (hc : isBlank c = false ∧ c ≠ '\\') : Plain (word ++ [c]) := by
  intro d hd
  rcases List.mem_append.1 hd with hd | hd
  · exact h d hd
  · rw [List.mem_singleton.1 hd]
    exact hc

/-- No line feed stands in a word. -/
theorem Plain.feed {word : List Char} (h : Plain word) : '\n' ∉ word := by
  intro hmem
  exact absurd (h _ hmem).1 (by decide)

theorem Plain.comment {word : List Char} (h : Plain word) : '\\' ∉ word := by
  intro hmem
  exact (h _ hmem).2 rfl

/-- A character starts a comment, or separates words, or belongs to one. -/
theorem char_cases (c : Char) :
    c = '\\' ∨ isBlank c = true ∨ isBlank c = false ∧ c ≠ '\\' := by
  by_cases hcomment : c = '\\'
  · exact .inl hcomment
  · cases hblank : isBlank c with
    | true => exact .inr (.inl rfl)
    | false => exact .inr (.inr ⟨rfl, hcomment⟩)

section Rewording

variable {f : List Char → List Char} {text word : List Char} {c : Char}

@[simp] theorem flush_nil : flush f [] = [] := if_pos rfl

theorem flush_of_ne_nil (h : word ≠ []) : flush f word = f word := if_neg h

theorem plain_flush (hf : ∀ word, Solid word → Solid (f word)) (h : Plain word) :
    Plain (flush f word) := by
  by_cases hne : word = []
  · rw [hne, flush_nil]
    exact plain_nil
  · rw [flush_of_ne_nil hne]
    exact (solid_iff.1 (hf word (solid_iff.2 ⟨hne, h⟩))).2

theorem reword_comment (word text : List Char) :
    reword f (some word) ('\\' :: text) = flush f word ++ '\\' :: reword f none text :=
  if_pos rfl

theorem reword_blank (h : isBlank c = true) (word text : List Char) :
    reword f (some word) (c :: text) = flush f word ++ c :: reword f (some []) text := by
  have hcomment : c ≠ '\\' := by
    rintro rfl
    exact absurd h (by decide)
  rw [reword, if_neg hcomment, if_pos h]

theorem reword_visible (h : isBlank c = false ∧ c ≠ '\\') (word text : List Char) :
    reword f (some word) (c :: text) = reword f (some (word ++ [c])) text := by
  rw [reword, if_neg h.2, h.1, if_neg Bool.false_ne_true]

section Lines

/-- What is before a line feed and what is behind it are replaced one after the other. -/
theorem reword_append_feed {line : List Char} (h : '\n' ∉ line) (mode : Option (List Char))
    (rest : List Char) :
    reword f mode (line ++ '\n' :: rest) =
      reword f mode line ++ '\n' :: reword f (some []) rest := by
  induction line generalizing mode with
  | nil =>
      cases mode with
      | none => rfl
      | some word => exact reword_blank (by decide) word rest
  | cons c line ih =>
      obtain ⟨hc, hline⟩ := not_or.1 (List.mem_cons.not.1 h)
      cases mode with
      | none => simp only [List.cons_append, reword, ih hline]
      | some word =>
          rw [List.cons_append]
          rcases char_cases c with rfl | hblank | hvisible
          · rw [reword_comment, reword_comment, ih hline, List.append_assoc, List.cons_append]
          · rw [reword_blank hblank, reword_blank hblank, ih hline, List.append_assoc,
              List.cons_append]
          · rw [reword_visible hvisible, reword_visible hvisible, ih hline]

/-- No line feed gets into a line. -/
theorem feed_notMem_reword (hf : ∀ word, Solid word → Solid (f word)) (htext : '\n' ∉ text)
    {mode : Option (List Char)} (hmode : ∀ word ∈ mode, Plain word) :
    '\n' ∉ reword f mode text := by
  induction text generalizing mode with
  | nil =>
      cases mode with
      | none => exact List.not_mem_nil
      | some word => exact (plain_flush hf (hmode word rfl)).feed
  | cons c text ih =>
      obtain ⟨hc, htext⟩ := not_or.1 (List.mem_cons.not.1 htext)
      have hcopy : '\n' ∉ reword f none text := ih htext fun _ h => by cases h
      have hread {word : List Char} (hword : Plain word) : '\n' ∉ reword f (some word) text := by
        apply ih htext
        rintro _ ⟨⟩
        exact hword
      cases mode with
      | none => simpa [reword, hc, Ne.symm hc] using hcopy
      | some word =>
          have hword := hmode word rfl
          have hflush := (plain_flush hf hword).feed
          rcases char_cases c with rfl | hblank | hvisible
          · rw [reword_comment]
            simp [hflush, hcopy]
          · rw [reword_blank hblank]
            simp [hflush, hc, hread plain_nil]
          · rw [reword_visible hvisible]
            exact hread (hword.push hvisible)

theorem reword_ne_nil (hf : ∀ word, Solid word → Solid (f word)) (hword : Plain word)
    (h : word ≠ [] ∨ text ≠ []) : reword f (some word) text ≠ [] := by
  induction text generalizing word with
  | nil =>
      have hne : word ≠ [] := h.resolve_right fun hnil => hnil rfl
      rw [reword, flush_of_ne_nil hne]
      exact (hf word (solid_iff.2 ⟨hne, hword⟩)).nonempty
  | cons c text ih =>
      rcases char_cases c with rfl | hblank | hvisible
      · rw [reword_comment]
        exact List.append_ne_nil_of_right_ne_nil _ (List.cons_ne_nil _ _)
      · rw [reword_blank hblank]
        exact List.append_ne_nil_of_right_ne_nil _ (List.cons_ne_nil _ _)
      · rw [reword_visible hvisible]
        apply ih (hword.push hvisible)
        exact .inl (List.append_ne_nil_of_right_ne_nil _ (List.cons_ne_nil _ _))

/-- A text is empty, or a line that nothing ends, or starts with a line that a line feed
ends. -/
@[elab_as_elim]
theorem lines_induction {motive : List Char → Prop} (nil : motive [])
    (last : ∀ line, line ≠ [] → '\n' ∉ line → motive line)
    (line : ∀ line rest, '\n' ∉ line → motive rest → motive (line ++ '\n' :: rest))
    (text : List Char) : motive text := by
  induction hlength : text.length using Nat.strongRecOn generalizing text with
  | ind n ih =>
      subst hlength
      by_cases hfeed : '\n' ∈ text
      · obtain ⟨front, rest, rfl, hfront⟩ := List.eq_append_cons_of_mem hfeed
        apply line front rest hfront
        apply ih rest.length _ rest rfl
        rw [List.length_append, List.length_cons]
        omega
      · by_cases hne : text = []
        · exact hne ▸ nil
        · exact last text hne hfeed

/-- Lines are reworded one by one. -/
theorem lines_reword (hf : ∀ word, Solid word → Solid (f word)) (text : List Char) :
    lines (reword f (some []) text) = (lines text).map (reword f (some [])) := by
  have hmode : ∀ word ∈ some ([] : List Char), Plain word := by
    rintro _ ⟨⟩
    exact plain_nil
  induction text using lines_induction with
  | nil => rfl
  | last line hne hline =>
      rw [lines_of_notMem hline hne, lines_of_notMem (feed_notMem_reword hf hline hmode)
        (reword_ne_nil hf plain_nil (.inr hne))]
      rfl
  | line line rest hline ih =>
      rw [reword_append_feed hline, lines_append_feed_of_notMem hline,
        lines_append_feed_of_notMem (feed_notMem_reword hf hline hmode), ih, List.map_cons]

end Lines

section Words

/-- The comment starts where it did. -/
theorem beforeComment_reword (hf : ∀ word, Solid word → Solid (f word)) (hword : Plain word)
    (text : List Char) :
    beforeComment (reword f (some word) text) = reword f (some word) (beforeComment text) := by
  induction text generalizing word with
  | nil =>
      exact beforeComment_of_notMem (plain_flush hf hword).comment
  | cons c text ih =>
      have hflush := (plain_flush hf hword).comment
      have hkeep (hcomment : c ≠ '\\') (rest : List Char) :
          beforeComment (c :: rest) = c :: beforeComment rest := by
        simp [beforeComment, hcomment]
      rcases char_cases c with rfl | hblank | hvisible
      · have hnone (rest : List Char) : beforeComment ('\\' :: rest) = [] := by
          simp [beforeComment]
        rw [reword_comment, beforeComment_append_of_notMem hflush, hnone, hnone, List.append_nil]
        rfl
      · have hcomment : c ≠ '\\' := by
          rintro rfl
          exact absurd hblank (by decide)
        rw [hkeep hcomment, reword_blank hblank, reword_blank hblank,
          beforeComment_append_of_notMem hflush, hkeep hcomment, ih plain_nil]
      · rw [hkeep hvisible.2, reword_visible hvisible, reword_visible hvisible]
        exact ih (hword.push hvisible)

/-- Visible characters are read as one word. -/
theorem reword_append_of_plain {piece : List Char} (h : Plain piece) (word text : List Char) :
    reword f (some word) (piece ++ text) = reword f (some (word ++ piece)) text := by
  induction piece generalizing word with
  | nil => rw [List.nil_append, List.append_nil]
  | cons c piece ih =>
      have hpiece : Plain piece := fun d hd => h d (List.mem_cons_of_mem c hd)
      rw [List.cons_append, reword_visible (h c List.mem_cons_self), ih hpiece,
        List.append_assoc, List.singleton_append]

/-- A word is replaced where a blank or the end of the text is behind it. -/
theorem reword_flush (hend : ∀ c ∈ text.head?, isBlank c = true) (word : List Char) :
    reword f (some word) text = flush f word ++ reword f (some []) text := by
  cases text with
  | nil => exact (List.append_nil _).symm
  | cons c text =>
      have hblank := hend c rfl
      rw [reword_blank hblank, reword_blank hblank, flush_nil, List.nil_append]

/-- The runs of a text without comment are replaced one by one. -/
theorem map_text_runs_reword (hf : ∀ word, Solid word → Solid (f word)) (htext : '\\' ∉ text)
    (offset offset' : Nat) :
    (runs offset (reword f (some []) text)).map Run.text =
      ((runs offset' text).map Run.text).map f := by
  induction text using pieces_induction generalizing offset offset' with
  | nil => rfl
  | blank c text hc ih =>
      have hlater : '\\' ∉ text := fun hmem => htext (List.mem_cons_of_mem c hmem)
      rw [reword_blank hc, flush_nil, List.nil_append, runs_blank hc, runs_blank hc]
      exact ih hlater _ _
  | piece word text hne hvisible hend ih =>
      obtain ⟨hcomment, hlater⟩ := not_or.1 (List.mem_append.not.1 htext)
      have hsolid : Solid word := ⟨hne, hvisible, hcomment⟩
      have hnew := hf word hsolid
      have hendNew : ∀ c ∈ (reword f (some []) text).head?, isBlank c = true := by
        cases text with
        | nil => exact fun c hc => by cases hc
        | cons d text =>
            rw [reword_blank (hend d rfl), flush_nil]
            exact hend
      rw [reword_append_of_plain (solid_iff.1 hsolid).2, reword_flush hend, List.nil_append,
        flush_of_ne_nil hne, runs_piece hnew.nonempty hnew.visible hendNew,
        runs_piece hne hvisible hend, List.map_cons, List.map_cons, List.map_cons, ih hlater]

end Words

end Rewording

end Text

/-- The text with other words in front of comments. -/
def reworded (f : List Char → List Char) (source : String) : String :=
  String.ofList (Text.reword f (some []) source.toList)

/-- A text is alike to the one with other words, if tokens are alike to those that are read from
the words in their places. -/
theorem Line.alike_reworded {l : Likeness} {f : List Char → List Char}
    (hf : ∀ word, Text.Solid word → Text.Solid (f word))
    (hl : ∀ word, Text.Solid word →
      (Token.ofString (String.ofList word)).Alike l (Token.ofString (String.ofList (f word))))
    (source : String) :
    List.Forall₂ (Alike l) (ofSource source) (ofSource (reworded f source)) := by
  have hscan (text : List Char) :
      List.Forall₂ (fun token token' : Located Token => token.item.Alike l token'.item)
        (Token.scan text) (Token.scan (Text.reword f (some []) text)) := by
    have hcomment : '\\' ∉ beforeComment text := (beforeComment_spec text).1
    have hruns := Text.map_text_runs_reword hf hcomment 0 0
    rw [← Text.beforeComment_reword hf Text.plain_nil, List.map_map] at hruns
    have hsolid : ∀ run ∈ Text.runs 0 (beforeComment text), Text.Solid run.text := by
      intro run hrun
      obtain ⟨before, after, htext, _, hpiece⟩ := Text.exists_isPiece_of_mem_runs hrun
      refine ⟨hpiece.nonempty, hpiece.visible, ?_⟩
      intro hmem
      apply hcomment
      rw [htext]
      simp [hmem]
    have hwords : List.Forall₂ (fun run run' => f run.text = run'.text)
        (Text.runs 0 (beforeComment text))
        (Text.runs 0 (beforeComment (Text.reword f (some []) text))) := by
      rw [← List.forall₂_map_right_iff, hruns, ← List.forall₂_map_left_iff, List.forall₂_eq_eq_eq]
      rfl
    have hboth := (List.forall₂_and_left _ _).2 ⟨hsolid, hwords⟩
    rw [Token.scan, Token.scan, List.forall₂_map_left_iff, List.forall₂_map_right_iff]
    apply hboth.imp
    rintro run run' ⟨hrun, hsame⟩
    rw [← hsame]
    exact hl run.text hrun
  have hlines : Text.lines (reworded f source).toList =
      (Text.lines source.toList).map (Text.reword f (some [])) := by
    rw [reworded, String.toList_ofList, Text.lines_reword hf]
  rw [ofSource, ofSource, hlines, List.zipIdx_map, List.map_map, List.forall₂_map_left_iff,
    List.forall₂_map_right_iff]
  exact List.forall₂_same.2 fun line _ => ⟨rfl, hscan line.1⟩

end StraightForth
