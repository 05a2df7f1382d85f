import StraightForth.Line
import Mathlib.Data.List.TakeWhile

/-!
# Columns of tokens

The text of a line in front of its comment falls into blanks and maximal pieces of visible
characters. The main statement is that the tokens of the line are these pieces and nothing
else: each column has one of them, the columns are in order and apart, no visible character is
left over, and a token is read from the characters of its column.

## Implementation notes

The scan puts single characters in front of the runs behind them. Nearly everything about it
is proved over whole pieces instead: `pieces_induction` takes a text apart in this way, and
`runs_blank` and `runs_piece` say what each part adds.
-/

namespace StraightForth

namespace Text

/-- The characters with Unicode's property `White_Space`. -/
def whiteSpace : List Char :=
  ['\t', '\n', '\x0b', '\x0c', '\r', ' ', '\u0085', '\u00a0', '\u1680', '\u2000', '\u2001',
    '\u2002', '\u2003', '\u2004', '\u2005', '\u2006', '\u2007', '\u2008', '\u2009', '\u200a',
    '\u2028', '\u2029', '\u202f', '\u205f', '\u3000']

/-- The ranges of blanks hold the property's characters and no others. -/
theorem isBlank_iff (c : Char) : isBlank c = true ↔ c ∈ whiteSpace := by
  have hranges : isBlank c = true ↔ c.toNat ∈ whiteSpace.map Char.toNat := by
    simp only [isBlank, blankRanges, whiteSpace, List.any_cons, List.any_nil, Bool.or_eq_true,
      Bool.and_eq_true, decide_eq_true_eq, List.map_cons, List.map_nil, List.mem_cons,
      List.not_mem_nil, Char.reduceToNat, Bool.false_eq_true, or_false]
    omega
  rw [hranges, List.mem_map]
  constructor
  · rintro ⟨d, hd, heq⟩
    exact Char.toNat_inj.1 heq ▸ hd
  · exact fun h => ⟨c, h, rfl⟩

/-- A text is empty, or starts with a blank, or starts with a piece of visible characters that
ends at a blank or at the end of the text. -/
@[elab_as_elim]
theorem pieces_induction {motive : List Char → Prop} (nil : motive [])
    (blank : ∀ c text, isBlank c = true → motive text → motive (c :: text))
    (piece : ∀ word text, word ≠ [] → (∀ c ∈ word, isBlank c = false) →
      (∀ c ∈ text.head?, isBlank c = true) → motive text → motive (word ++ text))
    (text : List Char) : motive text := by
  induction hlength : text.length using Nat.strongRecOn generalizing text with
  | ind n ih =>
      subst hlength
      cases text with
      | nil => exact nil
      | cons c text =>
          by_cases hc : isBlank c = true
          · exact blank c text hc (ih _ (Nat.lt_succ_self _) text rfl)
          · have hsplit : text.takeWhile (fun d => !isBlank d) ++
                text.dropWhile (fun d => !isBlank d) = text := List.takeWhile_append_dropWhile
            have hshort : (text.dropWhile fun d => !isBlank d).length < (c :: text).length :=
              Nat.lt_succ_of_le (List.length_dropWhile_le _ _)
            have hvisible : ∀ d ∈ c :: text.takeWhile (fun d => !isBlank d),
                isBlank d = false := by
              intro d hd
              rcases List.mem_cons.1 hd with rfl | hd
              · simpa using hc
              · simpa using List.mem_takeWhile_imp hd
            have hend : ∀ d ∈ (text.dropWhile fun d => !isBlank d).head?, isBlank d = true := by
              intro d hd
              have hhead := List.head?_dropWhile_not (fun d => !isBlank d) text
              rw [Option.mem_def.1 hd] at hhead
              simpa using hhead
            have hwhole := piece _ _ (List.cons_ne_nil c _) hvisible hend (ih _ hshort _ rfl)
            rwa [List.cons_append, hsplit] at hwhole

section Runs

variable {offset : Nat} {text : List Char}

/-- A blank in front only moves the runs. -/
theorem runs_blank {c : Char} (h : isBlank c = true) (offset : Nat) (text : List Char) :
    runs offset (c :: text) = runs (offset + 1) text := by
  simp [consRuns, h]

/-- A character in front touches no run but the one that it starts. -/
theorem start_eq_or_mem_of_mem_consRuns {c : Char} {later : List Run} {run : Run}
    (h : run ∈ consRuns c offset later) : run.start = offset ∨ run ∈ later := by
  unfold consRuns at h
  split at h
  · exact .inr h
  · cases later with
    | nil => exact .inl (congrArg Run.start (List.mem_singleton.1 h))
    | cons first rest =>
        dsimp only at h
        split at h
        · rcases List.mem_cons.1 h with rfl | h
          · exact .inl rfl
          · exact .inr (List.mem_cons_of_mem first h)
        · rcases List.mem_cons.1 h with rfl | h
          · exact .inl rfl
          · exact .inr h

/-- No run starts before the text. -/
theorem le_start_of_mem_runs {run : Run} (h : run ∈ runs offset text) : offset ≤ run.start := by
  induction text generalizing offset with
  | nil => simp at h
  | cons c text ih =>
      rcases start_eq_or_mem_of_mem_consRuns (runs_cons offset c text ▸ h) with hstart | hlater
      · omega
      · have hnext := ih hlater
        omega

/-- A text that starts with a blank, or is empty, has no run at its start. -/
theorem start_ne_of_mem_runs (hend : ∀ c ∈ text.head?, isBlank c = true) {run : Run}
    (h : run ∈ runs offset text) : run.start ≠ offset := by
  cases text with
  | nil => simp at h
  | cons c text =>
      rw [runs_blank (hend c rfl)] at h
      have hstart := le_start_of_mem_runs h
      omega

/-- A visible character in front of a text without a run at its start is a run of its own. -/
theorem consRuns_alone {c : Char} (hc : isBlank c = false) {later : List Run}
    (h : ∀ run ∈ later, run.start ≠ offset + 1) :
    consRuns c offset later = ⟨offset, [c]⟩ :: later := by
  cases later with
  | nil => simp [consRuns, hc]
  | cons run rest => simp [consRuns, hc, h run List.mem_cons_self]

/-- A piece in front is the first run, and moves the others. -/
theorem runs_piece {word : List Char} (hne : word ≠ [])
    (hvisible : ∀ c ∈ word, isBlank c = false) (hend : ∀ c ∈ text.head?, isBlank c = true)
    (offset : Nat) :
    runs offset (word ++ text) = ⟨offset, word⟩ :: runs (offset + word.length) text := by
  induction word generalizing offset with
  | nil => exact (hne rfl).elim
  | cons c word ih =>
      have hc := hvisible c List.mem_cons_self
      rw [List.cons_append, runs_cons]
      cases word with
      | nil => exact consRuns_alone hc fun run hrun => start_ne_of_mem_runs hend hrun
      | cons d word =>
          have hrest : ∀ e ∈ d :: word, isBlank e = false := fun e he =>
            hvisible e (List.mem_cons_of_mem c he)
          rw [ih (List.cons_ne_nil d word) hrest (offset + 1)]
          simp [consRuns, hc, Nat.add_comm, Nat.add_left_comm]

/-- Blanks hold no run. -/
theorem runs_of_blank (h : ∀ c ∈ text, isBlank c = true) : runs offset text = [] := by
  induction text generalizing offset with
  | nil => rfl
  | cons c text ih =>
      rw [runs_blank (h c List.mem_cons_self)]
      exact ih fun d hd => h d (List.mem_cons_of_mem c hd)

/-- No run goes across a blank, so what starts with one only adds its own runs. -/
theorem runs_append {front back : List Char} (h : ∀ c ∈ back.head?, isBlank c = true)
    (offset : Nat) :
    runs offset (front ++ back) = runs offset front ++ runs (offset + front.length) back := by
  induction front using pieces_induction generalizing offset with
  | nil => rfl
  | blank c front hc ih =>
      rw [List.cons_append, runs_blank hc, runs_blank hc, ih, List.length_cons,
        Nat.add_right_comm, Nat.add_assoc]
  | piece word front hne hvisible hend ih =>
      have hjoint : ∀ c ∈ (front ++ back).head?, isBlank c = true := by
        cases front with
        | nil => exact h
        | cons d front => exact hend
      rw [List.append_assoc, runs_piece hne hvisible hjoint, runs_piece hne hvisible hend, ih,
        List.length_append, Nat.add_assoc, List.cons_append]

/-- Where a text starts has no part in what its runs hold. -/
theorem map_text_runs (offset offset' : Nat) (text : List Char) :
    (runs offset text).map Run.text = (runs offset' text).map Run.text := by
  induction text using pieces_induction generalizing offset offset' with
  | nil => rfl
  | blank c text hc ih =>
      rw [runs_blank hc, runs_blank hc]
      exact ih _ _
  | piece word text hne hvisible hend ih =>
      rw [runs_piece hne hvisible hend, runs_piece hne hvisible hend, List.map_cons,
        List.map_cons, ih]

/-- A word that stands in a text as a whole: it is visible, and has blanks or an end of the text
on both sides. -/
structure IsPiece (before word after : List Char) : Prop where
  nonempty : word ≠ []
  visible : ∀ c ∈ word, isBlank c = false
  before : ∀ c ∈ before.getLast?, isBlank c = true
  after : ∀ c ∈ after.head?, isBlank c = true

/-- A word that stands in a text as a whole does so behind a longer start. Where nothing was in
front of it, the start itself has to end in a blank. -/
theorem IsPiece.append_left {front before word after : List Char} (h : IsPiece before word after)
    (hfront : before = [] → ∀ c ∈ front.getLast?, isBlank c = true) :
    IsPiece (front ++ before) word after := by
  refine ⟨h.nonempty, h.visible, ?_, h.after⟩
  intro c hc
  rw [List.getLast?_append] at hc
  cases before with
  | nil => exact hfront rfl c (by simpa using hc)
  | cons d before =>
      apply h.before c
      simpa using hc

/-- Every run is a piece of the text, and starts where it stands. -/
theorem exists_isPiece_of_mem_runs {run : Run} (h : run ∈ runs offset text) :
    ∃ before after, text = before ++ run.text ++ after ∧ run.start = offset + before.length ∧
      IsPiece before run.text after := by
  induction text using pieces_induction generalizing offset with
  | nil => simp at h
  | blank c text hc ih =>
      rw [runs_blank hc] at h
      obtain ⟨before, after, htext, hstart, hpiece⟩ := ih h
      refine ⟨[c] ++ before, after, ?_, ?_, hpiece.append_left fun _ => by simpa using hc⟩
      · rw [htext]
        rfl
      · rw [hstart, List.length_append, List.length_singleton, Nat.add_assoc]
  | piece word text hne hvisible hend ih =>
      rw [runs_piece hne hvisible hend] at h
      rcases List.mem_cons.1 h with rfl | h
      · exact ⟨[], text, rfl, rfl, hne, hvisible, by simp, hend⟩
      · obtain ⟨before, after, htext, hstart, hpiece⟩ := ih h
        -- Two pieces never touch, so the text behind `word` does not start with a run.
        have hbefore : before ≠ [] := by
          rintro rfl
          exact start_ne_of_mem_runs hend h (by simpa using hstart)
        refine ⟨word ++ before, after, ?_, ?_,
          hpiece.append_left fun hnil => (hbefore hnil).elim⟩
        · rw [htext]
          simp only [List.append_assoc]
        · rw [hstart, List.length_append, Nat.add_assoc]

/-- Every visible character lies in some run. -/
theorem exists_run_of_visible {i : Nat} {c : Char} (h : text[i]? = some c)
    (hc : isBlank c = false) (offset : Nat) :
    ∃ run ∈ runs offset text,
      run.start ≤ offset + i ∧ offset + i < run.start + run.text.length := by
  induction text using pieces_induction generalizing offset i with
  | nil => simp at h
  | blank d text hd ih =>
      cases i with
      | zero =>
          obtain rfl : d = c := by simpa using h
          rw [hd] at hc
          cases hc
      | succ i =>
          obtain ⟨run, hrun, hfrom, hto⟩ := ih (by simpa using h) (offset + 1)
          rw [runs_blank hd]
          refine ⟨run, hrun, ?_, ?_⟩ <;> omega
  | piece word text hne hvisible hend ih =>
      rw [runs_piece hne hvisible hend]
      by_cases hi : i < word.length
      · exact ⟨_, List.mem_cons_self, Nat.le_add_right _ _, Nat.add_lt_add_left hi _⟩
      · have hlater : text[i - word.length]? = some c := by
          rwa [List.getElem?_append_right (Nat.le_of_not_lt hi)] at h
        obtain ⟨run, hrun, hfrom, hto⟩ := ih hlater (offset + word.length)
        refine ⟨run, List.mem_cons_of_mem _ hrun, ?_, ?_⟩ <;> omega

/-- The runs are in order, with at least one blank between two of them. -/
theorem pairwise_runs (offset : Nat) (text : List Char) :
    (runs offset text).Pairwise fun left right => left.start + left.text.length < right.start := by
  induction text using pieces_induction generalizing offset with
  | nil => exact List.Pairwise.nil
  | blank c text hc ih =>
      rw [runs_blank hc]
      exact ih (offset + 1)
  | piece word text hne hvisible hend ih =>
      rw [runs_piece hne hvisible hend]
      refine List.Pairwise.cons ?_ (ih (offset + word.length))
      intro run hrun
      exact Nat.lt_of_le_of_ne (le_start_of_mem_runs hrun) (start_ne_of_mem_runs hend hrun).symm

end Runs

end Text

/-- A column holds a maximal run of the characters of a text that are no white space. -/
structure Span.Fills (column : Span) (text : List Char) : Prop where
  nonempty : column.start < column.stop
  within : column.stop ≤ text.length
  visible : ∀ i c, column.start ≤ i → i < column.stop → text[i]? = some c →
    c ∉ Text.whiteSpace
  before : ∀ i c, i + 1 = column.start → text[i]? = some c → c ∈ Text.whiteSpace
  after : ∀ c, text[column.stop]? = some c → c ∈ Text.whiteSpace

namespace Span.Fills

variable {text : List Char} {first second : Span}

/-- Of two maximal runs with a common place, none starts before the other. -/
theorem start_le (hfirst : first.Fills text) (hsecond : second.Fills text) {i : Nat}
    (hfrom : first.start ≤ i) (hto : i < second.stop) : first.start ≤ second.start := by
  by_contra hearlier
  have hplace : first.start - 1 < text.length := by
    have hwithin := hsecond.within
    omega
  have hget := List.getElem?_eq_getElem hplace
  exact hsecond.visible (first.start - 1) _ (by omega) (by omega) hget
    (hfirst.before (first.start - 1) _ (by omega) hget)

/-- None ends before the other either. -/
theorem stop_le (hfirst : first.Fills text) (hsecond : second.Fills text) {i : Nat}
    (hfrom : first.start ≤ i) (hto : i < second.stop) : first.stop ≤ second.stop := by
  by_contra hlater
  have hplace : second.stop < text.length := by
    have hwithin := hfirst.within
    omega
  have hget := List.getElem?_eq_getElem hplace
  exact hfirst.visible second.stop _ (by omega) (by omega) hget (hsecond.after _ hget)

/-- A place belongs to one maximal run at most. -/
theorem eq_of_common_place (hfirst : first.Fills text) (hsecond : second.Fills text) {i : Nat}
    (hi : first.start ≤ i ∧ i < first.stop) (hi' : second.start ≤ i ∧ i < second.stop) :
    first = second := by
  have hstart : first.start = second.start :=
    Nat.le_antisymm (hfirst.start_le hsecond hi.1 hi'.2) (hsecond.start_le hfirst hi'.1 hi.2)
  have hstop : first.stop = second.stop :=
    Nat.le_antisymm (hfirst.stop_le hsecond hi.1 hi'.2) (hsecond.stop_le hfirst hi'.1 hi.2)
  cases first
  cases second
  simp_all

end Span.Fills

namespace Text

theorem not_mem_whiteSpace {c : Char} (h : isBlank c = false) : c ∉ whiteSpace := by
  rw [← isBlank_iff, h]
  exact Bool.false_ne_true

/-- The column of a piece is filled by it. -/
theorem IsPiece.fills {before word after : List Char} (h : IsPiece before word after) :
    Span.Fills ⟨before.length, before.length + word.length⟩ (before ++ word ++ after) where
  nonempty := Nat.lt_add_of_pos_right (List.length_pos_iff.2 h.nonempty)
  within := by simp only [List.length_append]; omega
  visible i c hfrom hto hget := by
    dsimp only at hfrom hto
    rw [List.append_assoc, List.getElem?_append_right hfrom,
      List.getElem?_append_left (by omega)] at hget
    exact not_mem_whiteSpace (h.visible c (List.mem_of_getElem? hget))
  before i c hi hget := by
    dsimp only at hi
    have hplace : i < before.length := by omega
    have hlast : i = before.length - 1 := by omega
    rw [List.append_assoc, List.getElem?_append_left hplace, hlast,
      ← List.getLast?_eq_getElem?] at hget
    exact (isBlank_iff c).1 (h.before c hget)
  after c hget := by
    rw [List.getElem?_append_right (by simp), List.length_append, Nat.sub_self,
      ← List.head?_eq_getElem?] at hget
    exact (isBlank_iff c).1 (h.after c hget)

/-- A run fills its column, and the column gives back its text. -/
theorem fills_of_mem_runs {text : List Char} {run : Run} (h : run ∈ runs 0 text) :
    run.span.Fills text ∧ (text.take run.span.stop).drop run.span.start = run.text := by
  obtain ⟨before, after, rfl, hstart, hpiece⟩ := exists_isPiece_of_mem_runs h
  have hspan : run.span = ⟨before.length, before.length + run.text.length⟩ := by
    rw [Run.span, hstart, Nat.zero_add]
  rw [hspan]
  refine ⟨hpiece.fills, ?_⟩
  rw [← List.length_append, List.take_left, List.drop_left]

/-- The columns of the runs are exactly those that a maximal run fills. -/
theorem mem_map_span_runs_iff {text : List Char} {column : Span} :
    column ∈ (runs 0 text).map Run.span ↔ column.Fills text := by
  constructor
  · intro h
    obtain ⟨run, hrun, rfl⟩ := List.mem_map.1 h
    exact (fills_of_mem_runs hrun).1
  · intro h
    have hplace : column.start < text.length := Nat.lt_of_lt_of_le h.nonempty h.within
    have hget := List.getElem?_eq_getElem hplace
    have hvisible : isBlank text[column.start] = false := by
      have hnot := h.visible column.start _ (Nat.le_refl _) h.nonempty hget
      rw [← isBlank_iff] at hnot
      simpa using hnot
    obtain ⟨run, hrun, hfrom, hto⟩ := exists_run_of_visible hget hvisible 0
    rw [Nat.zero_add] at hfrom hto
    have hsame : run.span = column :=
      (fills_of_mem_runs hrun).1.eq_of_common_place h ⟨hfrom, hto⟩
        ⟨Nat.le_refl _, h.nonempty⟩
    exact hsame ▸ List.mem_map_of_mem hrun

end Text

/-- The comment starts with the first backslash. -/
theorem beforeComment_spec (text : List Char) :
    '\\' ∉ beforeComment text ∧
      ∃ comment, text = beforeComment text ++ comment ∧ ∀ c ∈ comment.head?, c = '\\' := by
  constructor
  · intro h
    simpa using List.mem_takeWhile_imp h
  · refine ⟨text.dropWhile (· ≠ '\\'), List.takeWhile_append_dropWhile.symm, ?_⟩
    intro c hc
    have hhead := List.head?_dropWhile_not (fun c : Char => decide (c ≠ '\\')) text
    rw [Option.mem_def.1 hc] at hhead
    simpa using hhead

/-- What stands before the first backslash stays in front of the comment. -/
theorem beforeComment_append_of_notMem {front : List Char} (h : '\\' ∉ front)
    (rest : List Char) : beforeComment (front ++ rest) = front ++ beforeComment rest := by
  apply List.takeWhile_append_of_pos
  intro c hc
  rw [decide_eq_true_eq]
  rintro rfl
  exact h hc

theorem beforeComment_of_notMem {text : List Char} (h : '\\' ∉ text) :
    beforeComment text = text := by
  have hwhole := beforeComment_append_of_notMem h []
  rw [List.append_nil] at hwhole
  exact hwhole.trans (List.append_nil text)

/-- Scanning is exact. The columns of the tokens are those of the maximal runs in front of the
comment, in order and apart. Each visible character lies in one of them, and each token is read
from the characters of its column. -/
theorem Token.scan_exact (text : String) :
    let shown := beforeComment text.toList
    let columns := (Token.scan text.toList).map Located.column
    ('\\' ∉ shown ∧ ∃ comment, text.toList = shown ++ comment ∧ ∀ c ∈ comment.head?, c = '\\') ∧
      (∀ column, column ∈ columns ↔ column.Fills shown) ∧
      columns.Pairwise (fun left right => left.stop < right.start) ∧
      (∀ i c, shown[i]? = some c → c ∉ Text.whiteSpace →
        ∃! column, column ∈ columns ∧ column.start ≤ i ∧ i < column.stop) ∧
      ∀ token ∈ Token.scan text.toList, token.item = Token.ofString
        (String.ofList ((shown.take token.column.stop).drop token.column.start)) := by
  intro shown columns
  have hcolumns : columns = (Text.runs 0 shown).map Text.Run.span := by
    simp only [columns, Token.scan, List.map_map]
    rfl
  have hmem (column : Span) : column ∈ columns ↔ column.Fills shown := by
    rw [hcolumns, Text.mem_map_span_runs_iff]
  refine ⟨beforeComment_spec text.toList, hmem, ?_, ?_, ?_⟩
  · rw [hcolumns, List.pairwise_map]
    exact Text.pairwise_runs 0 shown
  · intro i c hget hc
    have hvisible : Text.isBlank c = false := by
      rw [← Text.isBlank_iff] at hc
      simpa using hc
    obtain ⟨run, hrun, hfrom, hto⟩ := Text.exists_run_of_visible hget hvisible 0
    rw [Nat.zero_add] at hfrom hto
    have hcolumn : run.span ∈ columns := hcolumns ▸ List.mem_map_of_mem hrun
    refine ⟨run.span, ⟨hcolumn, hfrom, hto⟩, ?_⟩
    rintro other ⟨hother, hplace⟩
    exact ((hmem other).1 hother).eq_of_common_place ((hmem _).1 hcolumn) hplace ⟨hfrom, hto⟩
  · intro token htoken
    obtain ⟨run, hrun, rfl⟩ := List.mem_map.1 htoken
    rw [(Text.fills_of_mem_runs hrun).2]

example : (Token.scan " é\u30001\\ 2".toList).map Located.column = [⟨1, 2⟩, ⟨3, 4⟩] := by
  decide +kernel

end StraightForth
