import StraightForth.Proofs.Scanning

/-!
# Written tokens are read back

A token is written by characters that are all visible and start no comment, so a scan finds it
again wherever blanks stand around it, and reads the same token from it. The main statements
are that this holds of the tokens of any line when they are written with spaces between them,
and that lines written out are found again as lines.
-/

namespace StraightForth

namespace Text

/-- A text that a scan takes as one: it has characters, all of them visible, and starts no
comment. -/
structure Solid (text : List Char) : Prop where
  nonempty : text ≠ []
  visible : ∀ c ∈ text, isBlank c = false
  comment : '\\' ∉ text

/-- No line feed stands in visible text. -/
theorem Solid.feed {text : List Char} (h : Solid text) : '\n' ∉ text := by
  intro hmem
  have hblank := h.visible _ hmem
  revert hblank
  decide

/-- The digits are next to each other. -/
theorem isDigit_iff (c : Char) : c.isDigit = true ↔ 48 ≤ c.toNat ∧ c.toNat ≤ 57 := by
  simp [Char.isDigit, UInt32.le_iff_toNat_le]

/-- A digit is visible and starts no comment. -/
theorem solid_digit {c : Char} (h : c.isDigit = true) : isBlank c = false ∧ c ≠ '\\' := by
  have hrange := (isDigit_iff c).1 h
  constructor
  · rw [← Bool.not_eq_true]
    simp only [isBlank, blankRanges, List.any_cons, List.any_nil, Bool.or_eq_true,
      Bool.and_eq_true, decide_eq_true_eq, Bool.false_eq_true, or_false]
    omega
  · rintro rfl
    revert hrange
    decide

end Text

namespace Decimal

/-- A written integer consists of digits with at most a minus sign. -/
theorem solid_text (n : Int) : Text.Solid (text n).toList := by
  have hdigits (m : Nat) : ∀ c ∈ Nat.toDigits 10 m, Text.isBlank c = false ∧ c ≠ '\\' := by
    intro c hc
    exact Text.solid_digit (List.all_eq_true.1 (all_isDigit_toDigits m) c hc)
  have hsolid : ∀ text : List Char, text ≠ [] →
      (∀ c ∈ text, Text.isBlank c = false ∧ c ≠ '\\') → Text.Solid text := by
    intro text hne hall
    exact ⟨hne, fun c hc => (hall c hc).1, fun hc => (hall _ hc).2 rfl⟩
  cases n with
  | ofNat m =>
      rw [toList_text_ofNat]
      exact hsolid _ Nat.toDigits_ne_nil (hdigits m)
  | negSucc m =>
      rw [toList_text_negSucc]
      refine hsolid _ (List.cons_ne_nil _ _) ?_
      intro c hc
      rcases List.mem_cons.1 hc with rfl | hc
      · decide
      · exact hdigits (m + 1) c hc

end Decimal

namespace Word

/-- No word is written like an integer. -/
theorem int32?_spelling (word : Word) : Decimal.int32? word.spelling.toList = none := by
  cases word <;> decide

theorem solid_spelling (word : Word) : Text.Solid word.spelling.toList := by
  have hvisible : (word.spelling.toList.all fun c => !Text.isBlank c) = true := by
    cases word <;> decide
  constructor
  · cases word <;> decide
  · intro c hc
    simpa using List.all_eq_true.1 hvisible c hc
  · cases word <;> decide

theorem ofSpelling?_decimal (n : Int32) : ofSpelling? (Decimal.text n.toInt) = none := by
  cases h : ofSpelling? (Decimal.text n.toInt) with
  | none => rfl
  | some word =>
      have hinteger := Decimal.int32?_text n
      rw [← spelling_of_ofSpelling? h, int32?_spelling] at hinteger
      cases hinteger

end Word

namespace Token

/-- What a piece of text is: the word of that spelling, else the integer of that value, else
the name itself. -/
theorem ofString_cases (text : String) :
    (∃ word : Word, text = word.spelling ∧ ofString text = .word word) ∨
    (∃ value, Word.ofSpelling? text = none ∧ Decimal.int32? text.toList = some value ∧
      ofString text = .literal value) ∨
    (Word.ofSpelling? text = none ∧ Decimal.int32? text.toList = none ∧
      ofString text = .ident text) := by
  simp only [ofString]
  cases hword : Word.ofSpelling? text with
  | some word => exact .inl ⟨word, (Word.spelling_of_ofSpelling? hword).symm, rfl⟩
  | none =>
      cases hvalue : Decimal.int32? text.toList with
      | some value => exact .inr (.inl ⟨value, rfl, rfl, rfl⟩)
      | none => exact .inr (.inr ⟨rfl, rfl, rfl⟩)

/-- A token that was read is read again from its own text. -/
theorem ofString_text_ofString (text : String) :
    ofString (ofString text).text = ofString text := by
  rcases ofString_cases text with ⟨word, rfl, hread⟩ | ⟨value, _, _, hread⟩ | ⟨_, _, hread⟩
  · rw [hread]
    exact hread
  · rw [hread]
    simp only [Token.text, ofString, Word.ofSpelling?_decimal, Decimal.int32?_text]
  · rw [hread]
    exact hread

/-- The text of a token is as solid as the one it was read from. -/
theorem solid_text_ofString {text : String} (h : Text.Solid text.toList) :
    Text.Solid (ofString text).text.toList := by
  rcases ofString_cases text with ⟨word, _, hread⟩ | ⟨value, _, _, hread⟩ | ⟨_, _, hread⟩
  · rw [hread]
    exact word.solid_spelling
  · rw [hread]
    exact Decimal.solid_text value.toInt
  · rw [hread]
    exact h

/-- A token as it stands on some line. -/
structure Legible (token : Token) : Prop where
  solid : Text.Solid token.text.toList
  reread : ofString token.text = token

/-- Every token of a scan is legible. -/
theorem legible_of_mem_scan {text : List Char} {token : Located Token} (h : token ∈ scan text) :
    token.item.Legible := by
  obtain ⟨run, hrun, rfl⟩ := List.mem_map.1 h
  obtain ⟨before, after, htext, _, hpiece⟩ := Text.exists_isPiece_of_mem_runs hrun
  have hcomment : '\\' ∉ run.text := by
    intro hmem
    apply (beforeComment_spec text).1
    rw [htext]
    simp [hmem]
  refine ⟨solid_text_ofString ?_, ofString_text_ofString _⟩
  rw [String.toList_ofList]
  exact ⟨hpiece.nonempty, hpiece.visible, hcomment⟩

end Token

section Rows

variable {words : List (List Char)}

/-- Solid texts with spaces between them are the runs of the whole. -/
theorem Text.map_text_runs_intercalate (h : ∀ word ∈ words, Solid word) (offset : Nat) :
    (runs offset ([' '].intercalate words)).map Run.text = words := by
  induction words generalizing offset with
  | nil => rfl
  | cons word rest ih =>
      have hword := h word List.mem_cons_self
      have hrest : ∀ later ∈ rest, Solid later := fun later hmem =>
        h later (List.mem_cons_of_mem word hmem)
      cases rest with
      | nil =>
          have hend : ∀ c ∈ ([] : List Char).head?, isBlank c = true := by
            intro c hc
            cases hc
          rw [List.intercalate_singleton, ← List.append_nil word,
            runs_piece hword.nonempty hword.visible hend]
          simp
      | cons next rest =>
          have hend : ∀ c ∈ ([' '] ++ [' '].intercalate (next :: rest)).head?,
              isBlank c = true := by
            rintro c ⟨⟩
            decide
          rw [List.intercalate_cons_cons, List.append_assoc,
            runs_piece hword.nonempty hword.visible hend, List.singleton_append,
            runs_blank (by decide), List.map_cons, ih hrest]

/-- A row has no other characters than its words and what stands between them. -/
theorem Text.notMem_intercalate {c : Char} {between : List Char} (hbetween : c ∉ between)
    (h : ∀ word ∈ words, c ∉ word) : c ∉ between.intercalate words := by
  induction words with
  | nil => exact List.not_mem_nil
  | cons word rest ih =>
      have hword := h word List.mem_cons_self
      have hrest := ih fun later hmem => h later (List.mem_cons_of_mem word hmem)
      cases rest with
      | nil => rwa [List.intercalate_singleton]
      | cons next rest =>
          rw [List.intercalate_cons_cons]
          simp [hword, hbetween, hrest]

/-- A row of solid texts is scanned word by word. -/
theorem Token.map_item_scan_intercalate (h : ∀ word ∈ words, Text.Solid word) :
    (scan ([' '].intercalate words)).map Located.item =
      words.map fun word => ofString (String.ofList word) := by
  have hcomment : '\\' ∉ [' '].intercalate words :=
    Text.notMem_intercalate (by decide) fun word hmem => (h word hmem).comment
  have hruns := congrArg (List.map fun word => ofString (String.ofList word))
    (Text.map_text_runs_intercalate h 0)
  rw [List.map_map] at hruns
  rw [scan, beforeComment_of_notMem hcomment, List.map_map]
  exact hruns

namespace Line

variable {line : Line}

/-- All tokens of a line are legible. -/
def Legible (line : Line) : Prop := ∀ token ∈ line.tokens, token.item.Legible

theorem legible_of_mem_ofSource {source : String} (h : line ∈ ofSource source) :
    line.Legible := by
  obtain ⟨numbered, _, rfl⟩ := List.mem_map.1 h
  exact fun token htoken => Token.legible_of_mem_scan htoken

theorem toList_text (line : Line) :
    line.text.toList =
      [' '].intercalate (line.tokens.map fun token => token.item.text.toList) := by
  rw [text, String.toList_intercalate, List.map_map]
  rfl

/-- A line feed never gets into the text of a line. -/
theorem Legible.feed (h : line.Legible) : '\n' ∉ line.text.toList := by
  rw [toList_text]
  apply Text.notMem_intercalate (by decide)
  intro word hword
  obtain ⟨token, htoken, rfl⟩ := List.mem_map.1 hword
  exact (h token htoken).solid.feed

/-- The tokens of a line are read again from its text, though in other columns. -/
theorem Legible.reread (h : line.Legible) :
    (Token.scan line.text.toList).map Located.item = line.tokens.map Located.item := by
  have hsolid : ∀ word ∈ line.tokens.map (fun token => token.item.text.toList),
      Text.Solid word := by
    intro word hword
    obtain ⟨token, htoken, rfl⟩ := List.mem_map.1 hword
    exact (h token htoken).solid
  rw [toList_text, Token.map_item_scan_intercalate hsolid, List.map_map]
  apply List.map_congr_left
  intro token htoken
  simp only [Function.comp_apply, String.ofList_toList]
  exact (h token htoken).reread

end Line

end Rows

namespace Text

/-- Text without a line feed is the first line of whatever it is put in front of. -/
theorem lines_append_feed_of_notMem {line : List Char} (h : '\n' ∉ line) (rest : List Char) :
    lines (line ++ '\n' :: rest) = line :: lines rest := by
  induction line with
  | nil => rfl
  | cons c line ih =>
      obtain ⟨hc, hline⟩ := not_or.1 (List.mem_cons.not.1 h)
      rw [List.cons_append, lines_cons, ih hline]
      simp [consLines, Ne.symm hc]

/-- Without a line feed there is one line, if there is any. -/
theorem lines_of_notMem {text : List Char} (h : '\n' ∉ text) (hne : text ≠ []) :
    lines text = [text] := by
  induction text with
  | nil => exact (hne rfl).elim
  | cons c text ih =>
      obtain ⟨hc, htext⟩ := not_or.1 (List.mem_cons.not.1 h)
      have hjoins : c ≠ '\n' := Ne.symm hc
      cases text with
      | nil => simp [consLines, hjoins]
      | cons d text =>
          rw [lines_cons, ih htext (List.cons_ne_nil d text)]
          simp [consLines, hjoins]

/-- Lines that are written out are found again. -/
theorem lines_unlines {rows : List String} (h : ∀ row ∈ rows, '\n' ∉ row.toList) :
    lines (unlines rows).toList = rows.map String.toList := by
  induction rows with
  | nil => rfl
  | cons row rest ih =>
      have hrow := h row List.mem_cons_self
      have hrest := ih fun later hmem => h later (List.mem_cons_of_mem row hmem)
      have hlist : (unlines (row :: rest)).toList =
          row.toList ++ '\n' :: (unlines rest).toList := by
        simp [unlines, String.toList_join]
      rw [hlist, lines_append_feed_of_notMem hrow, hrest, List.map_cons]

end Text

end StraightForth
