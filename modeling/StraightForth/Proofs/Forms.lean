import StraightForth.Proofs.Numbering

/-!
# Sources inject nothing

What the source has to say stands in comments, and nothing in a comment ends its row. The code in
front of the comments takes one of a few forms, with numbers filled in. The main statement says
so of every row that depends on the source. It follows that a file is read back row by row, and
that its sections can be told from each other.

## Implementation notes

The assembler ends a row at a line feed, and a backslash at the end of a row joins the next one to
it. So a row is kept free of both, and of carriage returns, wherever they might stand.
-/

namespace StraightForth

namespace Text

/-- None of some characters stands in a text. -/
def Lacks (banned : List Char) (text : String) : Prop := ∀ c ∈ banned, c ∉ text.toList

instance (banned : List Char) (text : String) : Decidable (Lacks banned text) :=
  List.decidableBAll (fun c => c ∉ text.toList) banned

/-- The rows of a file. -/
def rows (file : String) : List String := (lines file.toList).map String.ofList

/-- The part of a row in front of its first semicolon. -/
def codePart (row : String) : String := String.ofList (row.toList.takeWhile (· ≠ ';'))

/-- The characters that could end a row. -/
def breaks : List Char := ['\n', '\r', '\\']

/-- The characters that could end a row or its code, or start a string. -/
def delimiters : List Char := ['\n', '\r', '\\', ';', '"']

section Lacks

variable {banned : List Char} {first second : String}

@[simp] theorem lacks_append :
    Lacks banned (first ++ second) ↔ Lacks banned first ∧ Lacks banned second := by
  simp only [Lacks, String.toList_append, List.mem_append, not_or]
  exact forall₂_and

theorem Lacks.mono {fewer : List Char} (h : Lacks banned first) (hfewer : fewer ⊆ banned) :
    Lacks fewer first :=
  fun c hc => h c (hfewer hc)

/-- A row of texts has the characters of the texts and of what separates them. -/
theorem lacks_intercalate {separator : String} {parts : List String}
    (hseparator : Lacks banned separator) (h : ∀ part ∈ parts, Lacks banned part) :
    Lacks banned (separator.intercalate parts) := by
  intro c hc
  rw [String.toList_intercalate]
  refine notMem_intercalate (hseparator c hc) fun word hword => ?_
  obtain ⟨part, hpart, rfl⟩ := List.mem_map.1 hword
  exact h part hpart c hc

/-- A number brings in nothing but digits and a sign. -/
theorem lacks_decimal (n : Int) : Lacks delimiters n.repr := by
  intro c hc hmem
  have hchar : c = '-' ∨ c.isDigit = true := by
    cases n with
    | ofNat m =>
        have hdigits : c ∈ Nat.toDigits 10 m := by
          rwa [← Nat.toList_repr]
        exact .inr (Nat.isDigit_of_mem_toDigits (by decide) (by decide) hdigits)
    | negSucc m =>
        have hlist : c ∈ '-' :: Nat.toDigits 10 (m + 1) := by
          simpa [Int.repr] using hmem
        rcases List.mem_cons.1 hlist with rfl | hdigits
        · exact .inl rfl
        · exact .inr (Nat.isDigit_of_mem_toDigits (by decide) (by decide) hdigits)
  rcases hchar with rfl | hdigit
  · revert hc
    decide
  · have hall : (delimiters.all fun c => !c.isDigit) = true := by decide
    have hnot := List.all_eq_true.1 hall c hc
    rw [hdigit] at hnot
    cases hnot

theorem lacks_natural (n : Nat) : Lacks delimiters n.repr := lacks_decimal (Int.ofNat n)

theorem Lacks.ne_semicolon (h : Lacks delimiters first) :
    ∀ c ∈ first.toList, decide (c ≠ ';') = true := by
  intro c hc
  rw [decide_eq_true_eq]
  rintro rfl
  exact h ';' (by decide) hc

/-- A comment is left out. -/
theorem codePart_append {comment : String} (h : Lacks delimiters first)
    (hcomment : comment.toList.head? = some ';') : codePart (first ++ comment) = first := by
  obtain ⟨rest, hrest⟩ := List.head?_eq_some_iff.1 hcomment
  rw [codePart, String.toList_append, List.takeWhile_append_of_pos h.ne_semicolon, hrest,
    List.takeWhile_cons_of_neg (by decide), List.append_nil, String.ofList_toList]

theorem codePart_of_lacks (h : Lacks delimiters first) : codePart first = first := by
  rw [codePart, List.takeWhile_eq_self_iff.2 h.ne_semicolon, String.ofList_toList]

end Lacks

/-- Rows are found again when they are written out. -/
theorem rows_unlines {rows : List String} (h : ∀ row ∈ rows, '\n' ∉ row.toList) :
    Text.rows (unlines rows) = rows := by
  rw [Text.rows, lines_unlines h, List.map_map]
  exact (List.map_congr_left fun row _ => String.ofList_toList).trans (List.map_id rows)

end Text

namespace Assembly

section Forms

/-- A part of a form. -/
inductive Part
  | fixed (text : String)
  /-- A natural number in decimal. -/
  | natural
  /-- An integer in decimal. -/
  | integer
  /-- Bytes in decimal, with commas between them. -/
  | bytes
deriving DecidableEq

/-- What a part may be filled with. -/
inductive Part.Admits : Part → String → Prop
  | fixed (text : String) : Admits (.fixed text) text
  | natural (n : Nat) : Admits .natural n.repr
  | integer (n : Int) : Admits .integer n.repr
  | bytes (bytes : List UInt8) :
      Admits .bytes (",".intercalate (bytes.map fun byte => byte.toNat.repr))

/-- A fixed text with places for numbers. -/
abbrev Form := List Part

namespace Form

/-- The text is the form with numbers filled in. -/
def Fits (form : Form) (text : String) : Prop :=
  ∃ pieces, List.Forall₂ Part.Admits form pieces ∧ text = String.join pieces

/-- The forms of the code between the prologue and the epilogue of `main`. -/
def text : List Form :=
  [[.fixed "    push dword ", .integer],
    [.fixed "    push name_", .natural],
    [.fixed "    push fmt_int"],
    [.fixed "    push fmt_name"],
    [.fixed "    push dots_int"],
    [.fixed "    push dots_name"],
    [.fixed "    push dots_open"],
    [.fixed "    push dots_sep"],
    [.fixed "    push dots_close"],
    [.fixed "    push eax"],
    [.fixed "    push ebx"],
    [.fixed "    push edx"],
    [.fixed "    push dword [esp]"],
    [.fixed "    push dword [esp+", .natural, .fixed "]"],
    [.fixed "    pop eax"],
    [.fixed "    pop ebx"],
    [.fixed "    add [esp], eax"],
    [.fixed "    sub [esp], eax"],
    [.fixed "    imul eax, [esp]"],
    [.fixed "    neg dword [esp]"],
    [.fixed "    mov eax, [var_", .natural, .fixed "]"],
    [.fixed "    mov [var_", .natural, .fixed "], eax"],
    [.fixed "    mov [esp], eax"],
    [.fixed "    add esp, ", .natural],
    [.fixed "    xor edx, edx"],
    [.fixed "    cmp ebx, 0"],
    [.fixed "    cmp ebx, -1"],
    [.fixed "    je mod_", .natural],
    [.fixed "    cdq"],
    [.fixed "    idiv ebx"],
    [.fixed "    call printf"],
    [.fixed "mod_", .natural, .fixed ":"],
    -- Nothing but a comment stands on the row.
    [.fixed "    "]]

/-- The form of a row that defines a name. -/
def data : Form := [.fixed "name_", .natural, .fixed " db ", .bytes, .fixed ",0    "]

/-- The form of a row that reserves a cell. -/
def cell : Form := [.fixed "var_", .natural, .fixed " resd 1    "]

theorem fits_fixed (text : String) : Fits [.fixed text] text :=
  ⟨[text], .cons (.fixed text) .nil, by simp [String.join_cons]⟩

/-- A number at the end, or with a fixed text behind it. -/
theorem fits_number {part : Part} {first number text : String} (h : part.Admits number)
    (htext : text.toList = first.toList ++ number.toList) : Fits [.fixed first, part] text := by
  refine ⟨[first, number], .cons (.fixed first) (.cons h .nil), ?_⟩
  apply String.toList_inj.1
  simp [htext, String.join_cons]

theorem fits_number_fixed {part : Part} {first number last text : String}
    (h : part.Admits number)
    (htext : text.toList = first.toList ++ (number.toList ++ last.toList)) :
    Fits [.fixed first, part, .fixed last] text := by
  refine ⟨[first, number, last], .cons (.fixed first) (.cons h (.cons (.fixed last) .nil)), ?_⟩
  apply String.toList_inj.1
  simp [htext, String.join_cons]

end Form

/-- An instruction that computes or prints has one of the forms. -/
theorem Form.exists_fits_of_isPlain {instruction : Instruction} (h : instruction.isPlain = true) :
    ∃ form ∈ Form.text, form.Fits (TextLine.code instruction).text := by
  unfold Instruction.isPlain at h
  split at h
  · next value =>
      refine ⟨[.fixed "    push dword ", .integer], by decide, ?_⟩
      apply fits_number (.integer value.toInt)
      simp [TextLine.text, Instruction.text]
  · next cells =>
      refine ⟨[.fixed "    push dword [esp+", .natural, .fixed "]"], by decide, ?_⟩
      apply fits_number_fixed (.natural (4 * cells))
      simp [TextLine.text, Instruction.text, Memory.text]
  · next cells =>
      refine ⟨[.fixed "    add esp, ", .natural], by decide, ?_⟩
      apply fits_number (.natural (4 * cells))
      simp [TextLine.text, Instruction.text]
  · have hforms : ∀ instruction ∈ Instruction.fixed,
        [.fixed (TextLine.code instruction).text] ∈ Form.text := by
      decide
    exact ⟨_, hforms instruction (of_decide_eq_true h), fits_fixed _⟩

/-- So has every line that a command is compiled to. -/
theorem Form.exists_fits_of_emits {shape : Shape} {command : Command} {line : TextLine}
    (h : shape.Emits command line) : ∃ form ∈ Form.text, form.Fits line.text := by
  cases h with
  | plain _ h => exact exists_fits_of_isPlain h
  | push x =>
      refine ⟨[.fixed "    push name_", .natural], by decide, ?_⟩
      apply fits_number (.natural (shape.nameIndex x))
      simp [TextLine.text, Instruction.text, Symbol.text]
  | @save x _ _ _ =>
      refine ⟨[.fixed "    mov [var_", .natural, .fixed "], eax"], by decide, ?_⟩
      apply fits_number_fixed (.natural (shape.vars.idxOf x))
      simp [TextLine.text, Instruction.text, Memory.text, Symbol.text, Register.text]
  | @load x _ _ _ =>
      refine ⟨[.fixed "    mov eax, [var_", .natural, .fixed "]"], by decide, ?_⟩
      apply fits_number_fixed (.natural (shape.vars.idxOf x))
      simp [TextLine.text, Instruction.text, Memory.text, Symbol.text, Register.text]
  | jump =>
      refine ⟨[.fixed "    je mod_", .natural], by decide, ?_⟩
      apply fits_number (.natural (shape.labels + 1))
      simp [TextLine.text, Instruction.text, labelText]
  | label =>
      refine ⟨[.fixed "mod_", .natural, .fixed ":"], by decide, ?_⟩
      apply fits_number_fixed (.natural (shape.labels + 1))
      simp [TextLine.text, labelText]

end Forms

section Code

theorem Register.lacks_text (register : Register) :
    Text.Lacks Text.delimiters register.text := by
  cases register <;> decide

theorem Symbol.lacks_text (symbol : Symbol) : Text.Lacks Text.delimiters symbol.text := by
  cases symbol with
  | name index => exact Text.lacks_append.2 ⟨by decide, Text.lacks_natural index⟩
  | cell index => exact Text.lacks_append.2 ⟨by decide, Text.lacks_natural index⟩
  | format format => cases format <;> decide
  | stackStart => decide

theorem Memory.lacks_text (memory : Memory) : Text.Lacks Text.delimiters memory.text := by
  cases memory with
  | top => decide
  | below cells =>
      simp only [Memory.text, Text.lacks_append]
      exact ⟨⟨by decide, Text.lacks_natural _⟩, by decide⟩
  | symbol symbol =>
      simp only [Memory.text, Text.lacks_append]
      exact ⟨⟨by decide, symbol.lacks_text⟩, by decide⟩

theorem labelText_lacks (index : Nat) : Text.Lacks Text.delimiters (labelText index) :=
  Text.lacks_append.2 ⟨by decide, Text.lacks_natural index⟩

/-- An instruction is all code. -/
theorem Instruction.lacks_text (instruction : Instruction) :
    Text.Lacks Text.delimiters instruction.text := by
  cases instruction <;>
    simp only [Instruction.text, Text.lacks_append, Register.lacks_text, Symbol.lacks_text,
      Memory.lacks_text, labelText_lacks, Text.lacks_natural, Text.lacks_decimal, and_true] <;>
    decide

/-- So is every line that the assembler reads. -/
theorem TextLine.lacks_text {line : TextLine} (h : line.isAssembled = true) :
    Text.Lacks Text.delimiters line.text := by
  cases line with
  | code instruction => exact Text.lacks_append.2 ⟨by decide, instruction.lacks_text⟩
  | label index => exact Text.lacks_append.2 ⟨labelText_lacks index, by decide⟩
  | source line => cases h
  | report report => cases h

/-- Every other line is a comment. -/
theorem TextLine.exists_comment {line : TextLine} (h : line.isAssembled = false) :
    ∃ comment, comment.toList.head? = some ';' ∧ line.text = "    " ++ comment := by
  cases line with
  | code _ | label _ => cases h
  | source line =>
      refine ⟨"; line " ++ line.number.repr ++ ": " ++ line.text, by simp, ?_⟩
      apply String.toList_inj.1
      simp [text]
  | report report =>
      refine ⟨"; ?" ++ report.text, by simp, ?_⟩
      apply String.toList_inj.1
      simp [text]

end Code

end Assembly

section Comments

namespace Text

/-- Whatever is found by a scan keeps its row whole. -/
theorem Solid.lacks {text : List Char} (h : Solid text) : ∀ c ∈ breaks, c ∉ text := by
  intro c hc hmem
  have hblank := h.visible c hmem
  simp only [breaks, List.mem_cons, List.not_mem_nil, or_false] at hc
  rcases hc with rfl | rfl | rfl
  · revert hblank
    decide
  · revert hblank
    decide
  · exact h.comment hmem

end Text

theorem IsIdentifier.lacks {x : String} (h : IsIdentifier x) : Text.Lacks Text.breaks x :=
  (isIdentifier_iff_legible.1 h).solid.lacks

theorem Line.Legible.lacks {line : Line} (h : line.Legible) : Text.Lacks Text.breaks line.text := by
  intro c hc
  rw [Line.toList_text]
  apply Text.notMem_intercalate
  · rw [List.mem_singleton]
    rintro rfl
    revert hc
    decide
  · intro word hword
    obtain ⟨token, htoken, rfl⟩ := List.mem_map.1 hword
    exact (h token htoken).solid.lacks c hc

theorem Token.Alike.lacks {token : Token} (h : token.Alike .ofIdentifiers token) :
    Text.Lacks Text.breaks token.text := by
  cases h with
  | word word => exact word.solid_spelling.lacks
  | literal _ => exact (Decimal.solid_text _).lacks
  | ident hname => exact hname.2.lacks

/-- A fault tells what is wrong with some tokens, and these keep a row whole. -/
theorem Fault.Alike.lacks_message {fault : Fault} (h : fault.Alike .ofIdentifiers fault) :
    Text.Lacks Text.breaks fault.message := by
  cases h with
  | nameMissing => decide
  | nameReserved htoken column _ => exact Text.lacks_append.2 ⟨htoken.lacks, by decide⟩
  | underflow => decide
  | notAName value _ =>
      cases value with
      | none => decide
      | some value => exact Text.lacks_append.2 ⟨(Decimal.solid_text _).lacks, by decide⟩
  | undeclared hname => exact hname.2.lacks
  | valueIsName hname => exact Text.lacks_append.2 ⟨by decide, hname.2.lacks⟩
  | operandIsName hname => exact Text.lacks_append.2 ⟨by decide, hname.2.lacks⟩

theorem Diagnostic.lacks_text {report : Diagnostic}
    (h : Text.Lacks Text.breaks report.message) : Text.Lacks Text.breaks report.text := by
  have hnumber (n : Nat) : Text.Lacks Text.breaks n.repr :=
    (Text.lacks_natural n).mono (by decide)
  have hkind : Text.Lacks Text.breaks report.kind.text := by
    cases report.kind <;> decide
  have hcolumn : Text.Lacks Text.breaks report.column.text := by
    simp only [Span.text, Text.lacks_append, hnumber, and_true]
    decide
  have hempty : Text.Lacks Text.breaks "" := by decide
  have hplace : Text.Lacks Text.breaks report.place := by
    rw [Diagnostic.place, Text.lacks_append]
    constructor
    · split
      · exact Text.lacks_append.2 ⟨by decide, hnumber _⟩
      · exact hempty
    · split
      · exact hempty
      · exact Text.lacks_append.2 ⟨by decide, hcolumn⟩
  rw [Diagnostic.text, Text.lacks_append, Text.lacks_append]
  refine ⟨⟨hkind, ?_⟩, ?_⟩
  · split
    · exact hempty
    · exact Text.lacks_append.2 ⟨by decide, hplace⟩
  · split
    · exact hempty
    · exact Text.lacks_append.2 ⟨by decide, h⟩

end Comments

namespace Assembly

section Rows

/-- The code of a row that defines a name. -/
def Listing.nameCode (index : Nat) (name : String) : String :=
  (Symbol.name index).text ++ " db " ++
    ",".intercalate ((Text.utf8 name).map fun byte => byte.toNat.repr) ++ ",0    "

/-- The code of a row that reserves a cell. -/
def Listing.cellCode (index : Nat) : String := (Symbol.cell index).text ++ " resd 1    "

namespace Listing

theorem nameRow_eq (index : Nat) (name : String) :
    nameRow index name = nameCode index name ++ ("; " ++ name) := by
  apply String.toList_inj.1
  simp [nameRow, nameCode, Text.utf8]

theorem cellRow_eq (index : Nat) (name : String) :
    cellRow index name = cellCode index ++ ("; " ++ name) := by
  apply String.toList_inj.1
  simp [cellRow, cellCode]

theorem lacks_nameCode (index : Nat) (name : String) :
    Text.Lacks Text.delimiters (nameCode index name) := by
  have hbytes : Text.Lacks Text.delimiters
      (",".intercalate ((Text.utf8 name).map fun byte => byte.toNat.repr)) := by
    refine Text.lacks_intercalate (by decide) fun number hnumber => ?_
    obtain ⟨byte, _, rfl⟩ := List.mem_map.1 hnumber
    exact Text.lacks_natural byte.toNat
  simp only [nameCode, Text.lacks_append, Symbol.lacks_text, hbytes, true_and, and_true]
  decide

theorem lacks_cellCode (index : Nat) : Text.Lacks Text.delimiters (cellCode index) :=
  Text.lacks_append.2 ⟨Symbol.lacks_text _, by decide⟩

theorem codePart_nameRow (index : Nat) (name : String) :
    Text.codePart (nameRow index name) = nameCode index name := by
  rw [nameRow_eq]
  exact Text.codePart_append (lacks_nameCode index name) (by simp)

theorem codePart_cellRow (index : Nat) (name : String) :
    Text.codePart (cellRow index name) = cellCode index := by
  rw [cellRow_eq]
  exact Text.codePart_append (lacks_cellCode index) (by simp)

theorem fits_nameCode (index : Nat) (name : String) : Form.data.Fits (nameCode index name) := by
  refine ⟨["name_", index.repr, " db ", _, ",0    "],
    .cons (.fixed _) (.cons (.natural index) (.cons (.fixed _)
      (.cons (.bytes (Text.utf8 name)) (.cons (.fixed _) .nil)))), ?_⟩
  apply String.toList_inj.1
  simp [nameCode, Symbol.text, String.join_cons]

theorem fits_cellCode (index : Nat) : Form.cell.Fits (cellCode index) := by
  apply Form.fits_number_fixed (.natural index)
  simp [cellCode, Symbol.text]

/-- What stands above the text. -/
def opening : List String :=
  ["global main", "extern printf", "", "section .text", "main:", "    mov [stack_start], esp"]

/-- What stands between the text and the formats. -/
def closing : List String :=
  ["    mov esp, [stack_start]", "    xor eax, eax", "    ret", "", "section .data"]

/-- The rows of the formats. -/
def formats : List String :=
  ["fmt_int db \"%d\",10,0", "fmt_name db \"%s\",10,0", "dots_int db \"%d\",0",
    "dots_name db \"%s\",0", "dots_open db \"[Bottom -> Top] [\",0", "dots_sep db \", \",0",
    "dots_close db \"]\",10,0"]

/-- What stands between the names and the cells. -/
def storage : List String := ["", "section .bss", "stack_start resd 1"]

theorem lines_eq (listing : Listing) :
    listing.lines = opening ++ listing.text.map TextLine.text ++ closing ++ formats ++
      listing.data ++ storage ++ listing.cells := by
  have hprologue : (prologue.map TextLine.code).map TextLine.text =
      ["    mov [stack_start], esp"] := by
    decide
  have hepilogue : (epilogue.map TextLine.code).map TextLine.text =
      ["    mov esp, [stack_start]", "    xor eax, eax", "    ret"] := by
    decide
  have hformats : Format.all.map Format.row = formats := by
    decide
  simp only [lines, main, List.map_append, hprologue, hepilogue, hformats, opening, closing,
    storage]
  simp [Symbol.text]

/-- A row is one that every file has, or it depends on the source. -/
theorem mem_lines_iff {listing : Listing} {row : String} :
    row ∈ listing.lines ↔ row ∈ opening ++ closing ++ formats ++ storage ∨
      row ∈ listing.text.map TextLine.text ++ listing.data ++ listing.cells := by
  rw [lines_eq]
  simp only [List.mem_append]
  tauto

end Listing

end Rows

section Compilation

variable {recover : Bool} {source : String} {listing : Listing}

/-- All names of a listing are identifiers. -/
theorem isIdentifier_of_compile (h : compile recover source = .ok listing) :
    (∀ x ∈ listing.names, IsIdentifier x) ∧ ∀ x ∈ listing.vars, IsIdentifier x := by
  have hboth := both_compile_of_alike (Line.alike_ofIdentifiers source) recover
  rw [h] at hboth
  obtain ⟨hnames, hvars, _⟩ := hboth
  constructor
  · exact fun x hx => (List.forall₂_same.1 hnames x hx).2
  · exact fun x hx => (List.forall₂_same.1 hvars x hx).2

/-- Instructions and labels are emitted for the command of some visit. -/
theorem exists_emits_of_mem (h : compile recover source = .ok listing) {line : TextLine}
    (hline : line ∈ listing.assembled) :
    ∃ v ∈ Shape.empty.visits (Turn.ofSource source), v.found.Emits v.turn.command line := by
  rw [assembled_eq_visits h] at hline
  obtain ⟨v, hv, hline⟩ := List.mem_flatMap.1 hline
  exact ⟨v, hv, v.found.emits_execute v.turn.command line hline⟩

/-- What a listing reports keeps its row whole. -/
theorem lacks_of_report_mem (h : compile recover source = .ok listing) {report : Diagnostic}
    (hreport : report ∈ listing.errors) : Text.Lacks Text.breaks report.text := by
  rw [errors_eq_visits h] at hreport
  obtain ⟨v, hv, hsome⟩ := List.mem_filterMap.1 hreport
  obtain ⟨hfound, hcommand⟩ :=
    Shape.alike_of_mem_visits .empty (fun turn => alike_command_of_mem) hv
  have hfault := (hfound.execute hcommand).fault
  obtain ⟨fault, hemitted, rfl⟩ := Option.map_eq_some_iff.1 hsome
  rw [show (v.found.execute v.turn.command).fault = some fault from hemitted] at hfault
  cases hfault with
  | some hfault =>
      apply Diagnostic.lacks_text
      rw [Fault.reportAt_eq]
      exact hfault.lacks_message

/-- No line of the text breaks its row. -/
theorem lacks_of_mem_text (h : compile recover source = .ok listing) :
    ∀ line ∈ listing.text, Text.Lacks Text.breaks line.text := by
  intro line hline
  have hcode (hread : line.isAssembled = true) : Text.Lacks Text.breaks line.text :=
    (TextLine.lacks_text hread).mono (by decide)
  cases line with
  | code instruction => exact hcode rfl
  | label index => exact hcode rfl
  | source shown =>
      rw [(compile_eq_page h).1] at hline
      have hlegible := Line.legible_of_mem_ofSource (Shape.mem_of_source_mem_page hline)
      simp only [TextLine.text, Text.lacks_append]
      exact ⟨⟨⟨by decide, (Text.lacks_natural _).mono (by decide)⟩, by decide⟩, hlegible.lacks⟩
  | report report =>
      have hreport : report ∈ listing.errors := by
        rw [errors_eq_reports h]
        exact List.mem_filterMap.2 ⟨_, hline, rfl⟩
      exact Text.lacks_append.2 ⟨by decide, lacks_of_report_mem h hreport⟩

/-- The code of every line has one of the forms. -/
theorem exists_fits_of_mem_text (h : compile recover source = .ok listing) :
    ∀ line ∈ listing.text, ∃ form ∈ Form.text, form.Fits (Text.codePart line.text) := by
  intro line hline
  cases hread : line.isAssembled with
  | true =>
      obtain ⟨v, _, hemits⟩ := exists_emits_of_mem h (List.mem_filter.2 ⟨hline, hread⟩)
      rw [Text.codePart_of_lacks (TextLine.lacks_text hread)]
      exact Form.exists_fits_of_emits hemits
  | false =>
      obtain ⟨comment, hcomment, htext⟩ := TextLine.exists_comment hread
      rw [htext, Text.codePart_append (by decide) hcomment]
      exact ⟨[.fixed "    "], by decide, Form.fits_fixed "    "⟩

theorem Listing.exists_of_mem_data {row : String} (h : row ∈ listing.data) :
    ∃ index, ∃ x ∈ listing.names, row = nameRow index x := by
  obtain ⟨⟨x, index⟩, hentry, rfl⟩ := List.mem_map.1 h
  exact ⟨index, x, List.fst_mem_of_mem_zipIdx hentry, rfl⟩

theorem Listing.exists_of_mem_cells {row : String} (h : row ∈ listing.cells) :
    ∃ index, ∃ x ∈ listing.vars, row = cellRow index x := by
  obtain ⟨⟨x, index⟩, hentry, rfl⟩ := List.mem_map.1 h
  exact ⟨index, x, List.fst_mem_of_mem_zipIdx hentry, rfl⟩

/-- No row that depends on the source breaks. -/
theorem lacks_of_mem_rows (h : compile recover source = .ok listing) :
    ∀ row ∈ listing.text.map TextLine.text ++ listing.data ++ listing.cells,
      Text.Lacks Text.breaks row := by
  obtain ⟨hnames, hvars⟩ := isIdentifier_of_compile h
  intro row hrow
  rcases List.mem_append.1 hrow with hrow | hrow
  · rcases List.mem_append.1 hrow with hrow | hrow
    · obtain ⟨line, hline, rfl⟩ := List.mem_map.1 hrow
      exact lacks_of_mem_text h line hline
    · obtain ⟨index, x, hx, rfl⟩ := Listing.exists_of_mem_data hrow
      rw [Listing.nameRow_eq, Text.lacks_append, Text.lacks_append]
      exact ⟨(Listing.lacks_nameCode index x).mono (by decide), by decide, (hnames x hx).lacks⟩
  · obtain ⟨index, x, hx, rfl⟩ := Listing.exists_of_mem_cells hrow
    rw [Listing.cellRow_eq, Text.lacks_append, Text.lacks_append]
    exact ⟨(Listing.lacks_cellCode index).mono (by decide), by decide, (hvars x hx).lacks⟩

/-- So the file is read back row by row. -/
theorem rows_render (h : compile recover source = .ok listing) :
    Text.rows listing.render = listing.lines := by
  have hfixed : ∀ row ∈ Listing.opening ++ Listing.closing ++ Listing.formats ++ Listing.storage,
      '\n' ∉ row.toList := by
    decide
  apply Text.rows_unlines
  intro row hrow
  rcases Listing.mem_lines_iff.1 hrow with hrow | hrow
  · exact hfixed row hrow
  · exact lacks_of_mem_rows h row hrow '\n' (by decide)

end Compilation

section Sections

theorem TextLine.text_ne_empty (line : TextLine) : line.text ≠ "" := by
  intro h
  have hlist := congrArg String.toList h
  cases line <;> simp [TextLine.text, labelText] at hlist

namespace Listing

variable {listing other : Listing}

/-- No row of the sections is empty, as far as it depends on the source. -/
theorem ne_empty_of_mem_rows (listing : Listing) :
    ∀ row ∈ listing.text.map TextLine.text ++ listing.data ++ listing.cells, row ≠ "" := by
  refine List.forall_mem_append.2 ⟨List.forall_mem_append.2 ⟨?_, ?_⟩, ?_⟩
  · intro row hrow
    obtain ⟨line, _, rfl⟩ := List.mem_map.1 hrow
    exact line.text_ne_empty
  · intro row hrow hempty
    obtain ⟨index, x, _, rfl⟩ := exists_of_mem_data hrow
    have hlist := congrArg String.toList hempty
    simp [nameRow, Symbol.text] at hlist
  · intro row hrow hempty
    obtain ⟨index, x, _, rfl⟩ := exists_of_mem_cells hrow
    have hlist := congrArg String.toList hempty
    simp [cellRow, Symbol.text] at hlist

/-- Between the sections there are empty rows, and no others are empty. -/
theorem splitOn_lines (listing : Listing) :
    listing.lines.splitOn "" =
      [["global main", "extern printf"],
        ["section .text", "main:", "    mov [stack_start], esp"] ++
          listing.text.map TextLine.text ++
          ["    mov esp, [stack_start]", "    xor eax, eax", "    ret"],
        ["section .data"] ++ formats ++ listing.data,
        ["section .bss", "stack_start resd 1"] ++ listing.cells] := by
  have hlines : listing.lines = ["global main", "extern printf"] ++ "" ::
      (["section .text", "main:", "    mov [stack_start], esp"] ++
        listing.text.map TextLine.text ++
        ["    mov esp, [stack_start]", "    xor eax, eax", "    ret"] ++ "" ::
      (["section .data"] ++ formats ++ listing.data ++ "" ::
      (["section .bss", "stack_start resd 1"] ++ listing.cells))) := by
    rw [lines_eq]
    simp [opening, closing, storage]
  have hfull {rows : List String} (h : ∀ row ∈ rows, row ≠ "") :
      ∀ row ∈ rows, (row == "") = false :=
    fun row hrow => beq_false_of_ne (h row hrow)
  -- Every separator is the first empty row of what is left, so the sections come off one by one.
  obtain ⟨hrows, hcells⟩ := List.forall_mem_append.1 listing.ne_empty_of_mem_rows
  obtain ⟨htext, hdata⟩ := List.forall_mem_append.1 hrows
  rw [hlines, List.splitOn, List.splitOnP_append_cons_of_forall_mem (hfull (by decide)) _ rfl,
    List.splitOnP_append_cons_of_forall_mem (hfull ?text) _ rfl,
    List.splitOnP_append_cons_of_forall_mem (hfull ?data) _ rfl,
    List.splitOnP_eq_singleton (hfull ?cells)]
  case text =>
    exact List.forall_mem_append.2 ⟨List.forall_mem_append.2 ⟨by decide, htext⟩, by decide⟩
  case data => exact List.forall_mem_append.2 ⟨by decide, hdata⟩
  case cells => exact List.forall_mem_append.2 ⟨by decide, hcells⟩

/-- So the sections can be told from the rows of the file. -/
theorem sections_eq_of_lines_eq (h : listing.lines = other.lines) :
    listing.text.map TextLine.text = other.text.map TextLine.text ∧ listing.data = other.data ∧
      listing.cells = other.cells := by
  have hsections := congrArg (List.splitOn "") h
  rw [splitOn_lines, splitOn_lines] at hsections
  simp only [List.cons.injEq, true_and, and_true] at hsections
  obtain ⟨htext, hdata, hcells⟩ := hsections
  refine ⟨?_, List.append_cancel_left hdata, List.append_cancel_left hcells⟩
  exact List.append_cancel_left (List.append_cancel_right htext)

end Listing

/-- Only reports look like reports. -/
theorem TextLine.report?_isSome_iff (line : TextLine) :
    line.report?.isSome = true ↔ "    ; ?".toList <+: line.text.toList := by
  cases line with
  | code instruction =>
      cases instruction <;> simp [TextLine.text, Instruction.text, TextLine.report?]
  | label index => simp [TextLine.text, labelText, TextLine.report?]
  | source line => simp [TextLine.text, TextLine.report?]
  | report report => simp [TextLine.text, TextLine.report?]

/-- The rows that look like reports are the reports. -/
theorem TextLine.filter_report_rows (lines : List TextLine) :
    (lines.map TextLine.text).filter (fun row => "    ; ?".toList <+: row.toList) =
      (lines.filterMap TextLine.report?).map fun report => "    ; ?" ++ report.text := by
  induction lines with
  | nil => rfl
  | cons line rest ih =>
      rw [List.map_cons, List.filter_cons, List.filterMap_cons, ih]
      have hline := line.report?_isSome_iff
      simp only [decide_eq_true_eq, ← hline]
      cases line <;> rfl

/-- The text of a source cannot pass itself off as code. Whatever it holds, no row of the listing
breaks, the code in front of comments has one of the fixed forms, the file is read back section by
section, and what looks like a report is one. -/
theorem compile_injects_nothing {recover : Bool} {source : String} {listing : Listing}
    (h : compile recover source = .ok listing) :
    (∀ row ∈ listing.text.map TextLine.text ++ listing.data ++ listing.cells,
      Text.Lacks ['\n', '\r', '\\'] row) ∧
    (∀ row ∈ listing.text.map TextLine.text, ∃ form ∈ Form.text, form.Fits (Text.codePart row)) ∧
    (∀ row ∈ listing.data, Form.data.Fits (Text.codePart row)) ∧
    (∀ row ∈ listing.cells, Form.cell.Fits (Text.codePart row)) ∧
    Text.rows listing.render =
      Listing.opening ++ listing.text.map TextLine.text ++ Listing.closing ++ Listing.formats ++
        listing.data ++ Listing.storage ++ listing.cells ∧
    (∀ (recover' : Bool) (source' : String) (other : Listing),
      compile recover' source' = .ok other → listing.render = other.render →
        listing.text.map TextLine.text = other.text.map TextLine.text ∧
          listing.data = other.data ∧ listing.cells = other.cells) ∧
    (listing.text.map TextLine.text).filter (fun row => "    ; ?".toList <+: row.toList) =
      listing.errors.map fun report => "    ; ?" ++ report.text := by
  refine ⟨lacks_of_mem_rows h, ?_, ?_, ?_, ?_, ?_, ?_⟩
  · intro row hrow
    obtain ⟨line, hline, rfl⟩ := List.mem_map.1 hrow
    exact exists_fits_of_mem_text h line hline
  · intro row hrow
    obtain ⟨index, x, _, rfl⟩ := Listing.exists_of_mem_data hrow
    rw [Listing.codePart_nameRow]
    exact Listing.fits_nameCode index x
  · intro row hrow
    obtain ⟨index, x, _, rfl⟩ := Listing.exists_of_mem_cells hrow
    rw [Listing.codePart_cellRow]
    exact Listing.fits_cellCode index
  · rw [rows_render h, Listing.lines_eq]
  · intro recover' source' other hother hrender
    apply Listing.sections_eq_of_lines_eq
    rw [← rows_render h, ← rows_render hother, hrender]
  · rw [errors_eq_reports h]
    exact TextLine.filter_report_rows listing.text

/-- The comment is gone, and the semicolon of a name stays behind one of the generator's. -/
theorem compile_injects_nothing_after_semicolons :
    ∃ listing, compile false "7 ;ret ! \\ \r ret\r\nvariable ;x" = .ok listing ∧
      listing.text.map TextLine.text =
        ["    ; line 1: 7 ;ret !", "    push dword 7", "    push name_0", "    add esp, 8",
          "    ; ?UNDEFINED VARIABLE IN 1 (7..8); ;ret", "    ; line 2: variable ;x"] ∧
      listing.cells = ["var_0 resd 1    ; ;x"] ∧
      (∀ row ∈ listing.cells, Form.cell.Fits (Text.codePart row)) ∧
      Text.rows listing.render =
        Listing.opening ++ listing.text.map TextLine.text ++ Listing.closing ++ Listing.formats ++
          listing.data ++ Listing.storage ++ listing.cells := by
  have hrows : (compile false "7 ;ret ! \\ \r ret\r\nvariable ;x").toOption.map
      (fun listing => (listing.text.map TextLine.text, listing.cells)) =
        some (["    ; line 1: 7 ;ret !", "    push dword 7", "    push name_0", "    add esp, 8",
          "    ; ?UNDEFINED VARIABLE IN 1 (7..8); ;ret", "    ; line 2: variable ;x"],
          ["var_0 resd 1    ; ;x"]) := by
    decide +kernel
  cases hcompile : compile false "7 ;ret ! \\ \r ret\r\nvariable ;x" with
  | error fatal =>
      rw [hcompile] at hrows
      cases hrows
  | ok listing =>
      rw [hcompile] at hrows
      obtain ⟨htext, hcells⟩ := Prod.mk.inj (Option.some.inj hrows)
      obtain ⟨_, _, _, hfits, hread, _⟩ := compile_injects_nothing hcompile
      exact ⟨listing, rfl, htext, hcells, hfits, hread⟩

end Sections

end Assembly

end StraightForth
