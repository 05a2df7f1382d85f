import StraightForth.Proofs.Lexing
import StraightForth.Proofs.Linking

/-!
# Files are assembled

An assembler makes statements of the rows of a file, and puts together what the statements of each
section lay down: the code of `main`, the strings in the data, and the cells behind them. It refuses
a file with a row that it cannot read, with a statement in the wrong section, or with a symbol that
is missing or defined twice. The main statement is that every listing is accepted once it is written
out, and it tells what comes of it.

## Implementation notes

What comes of a file has no comments, and nothing of the listing but what its rows say.
-/

namespace StraightForth

open Text (Lexeme lexemes Bare)

section Reader

/-- The byte that a word stands for. -/
def Text.byte? (word : List Char) : Option UInt8 :=
  (Decimal.natural? word).bind fun n => if n < 256 then some (UInt8.ofNat n) else none

namespace Assembly

/-- The parts of a file, with what stands between the start of the code and `main` apart. -/
inductive Region
  | opening
  | text
  | main
  | data
  | storage
deriving DecidableEq

/-- What an assembler makes of a row. -/
inductive Statement
  | nothing
  /-- A symbol that others may use. -/
  | exported (reference : Reference)
  /-- A symbol that others define. -/
  | imported (reference : Reference)
  | begins (region : Region)
  | label (reference : Reference)
  | code (instruction : Instruction)
  | bytes (symbol : Symbol) (content : List UInt8)
  | cell (symbol : Symbol)
deriving DecidableEq

/-- The bytes of one item, which is a number or a string. -/
def itemBytes? : List Lexeme → Option (List UInt8)
  | [.word number] => (Text.byte? number.toList).map fun byte => [byte]
  | [.quoted text] => some (Text.utf8 text)
  | _ => none

/-- The symbol that is written in a given way. -/
def Symbol.ofText? (text : String) : Option Symbol :=
  match Reference.ofText? text.toList with
  | some (.symbol symbol) => some symbol
  | _ => none

/-- The part that a section starts. -/
def Region.ofText? : String → Option Region
  | ".text" => some text
  | ".data" => some data
  | ".bss" => some storage
  | _ => none

/-- What is said without a mnemonic. -/
def Statement.ofDirective? : List Lexeme → Option Statement
  | [] => some .nothing
  | [.word word, .mark ':'] => (Reference.ofText? word.toList).map .label
  | .word word :: .word "db" :: items => do
      let symbol ← Symbol.ofText? word
      return .bytes symbol (← (operands items).mapM itemBytes?).flatten
  | [.word word, .word "resd", .word "1"] => (Symbol.ofText? word).map .cell
  | [.word "global", .word word] => (Reference.ofText? word.toList).map .exported
  | [.word "extern", .word word] => (Reference.ofText? word.toList).map .imported
  | [.word "section", .word word] => (Region.ofText? word).map .begins
  | _ => none

def Statement.ofLexemes? (lexemes : List Lexeme) : Option Statement :=
  ((Instruction.ofLexemes? lexemes).map .code).or (ofDirective? lexemes)

/-- The part in which the next statement stands, if this one may stand where it does. -/
def Region.next? (region : Region) : Statement → Option Region
  | .nothing | .exported _ | .imported _ => some region
  | .begins next => some next
  | .label .main => if region = text then some main else none
  | .label (.mark _) | .code _ => if region = main then some main else none
  | .bytes (.name _) _ | .bytes (.format _) _ => if region = data then some data else none
  | .cell (.cell _) | .cell .stackStart => if region = storage then some storage else none
  | _ => none

namespace Statement

/-- The line of code that a statement is. -/
def line? : Statement → Option TextLine
  | code instruction => some (.code instruction)
  | label (.mark index) => some (.label index)
  | _ => none

/-- The string that a statement lays down. -/
def string? : Statement → Option (Symbol × List UInt8)
  | bytes symbol content => some (symbol, content)
  | _ => none

/-- The cell that a statement keeps free. -/
def cell? : Statement → Option Symbol
  | cell symbol => some symbol
  | _ => none

end Statement

end Assembly

/-- What an assembler makes of a row. -/
def Row.statement? (row : String) : Option Assembly.Statement :=
  Assembly.Statement.ofLexemes? (lexemes row.toList)

namespace Assembly

/-- What comes of a file. -/
structure Image where
  /-- The lines of code from the entry on. -/
  main : List TextLine
  /-- The strings in the data, with the symbols at their starts. -/
  strings : List (Symbol × List UInt8)
  /-- The cells that are kept free, and are zero at first. -/
  cells : List Symbol
deriving DecidableEq

/-- Assemble the rows of a file. -/
def Image.ofRows? (rows : List String) : Option Image := do
  let statements ← rows.mapM Row.statement?
  let _ ← statements.foldlM Region.next? .opening
  if .exported .main ∈ statements ∧ .label .main ∈ statements ∧ Row.Link rows then
    return ⟨statements.filterMap Statement.line?, statements.filterMap Statement.string?,
      statements.filterMap Statement.cell?⟩
  else none

end Assembly

end Reader

/-- A byte is read back. -/
theorem Text.byte?_repr (byte : UInt8) : byte? byte.toNat.repr.toList = some byte := by
  rw [byte?, Nat.toList_repr, Decimal.natural?_toDigits, Option.bind_some, if_pos byte.toNat_lt,
    UInt8.ofNat_toNat]

namespace Assembly

section Rows

/-- What the assembler makes of a line. -/
def TextLine.statement : TextLine → Statement
  | code instruction => .code instruction
  | label index => .label (.mark index)
  | source _ | report _ => .nothing

/-- A word that is no symbol of the assembler's starts no instruction. -/
theorem Reference.not_mnemonic (reference : Reference) :
    Mnemonic.ofText? reference.text = none := by
  rw [Mnemonic.ofText?, List.find?_eq_none]
  intro mnemonic _ hsame
  have hsymbol := reference.isSymbol_text.2
  rw [← of_decide_eq_true hsame] at hsymbol
  have hword : Text.isSymbol mnemonic.text.toList = false := by
    cases mnemonic <;> decide
  rw [hword] at hsymbol
  cases hsymbol

/-- So a row that starts with a symbol is told by what comes next. -/
theorem Statement.ofLexemes?_reference (reference : Reference) (rest : List Lexeme) :
    ofLexemes? (.word reference.text :: rest) = ofDirective? (.word reference.text :: rest) := by
  rw [ofLexemes?, Instruction.ofLexemes?, reference.not_mnemonic]
  rfl

theorem Symbol.ofText?_text (symbol : Symbol) : ofText? symbol.text = some symbol := by
  have hread := (Reference.symbol symbol).ofText?_text
  rw [Reference.text] at hread
  rw [ofText?, hread]

/-- Each line of a listing is read as what it is. -/
theorem TextLine.statement?_text (line : TextLine) :
    Row.statement? line.text = some line.statement := by
  have hcomment (hread : line.isAssembled = false) : lexemes line.text.toList = [] := by
    obtain ⟨comment, hcomment, htext⟩ := exists_comment hread
    obtain ⟨rest, hrest⟩ := List.head?_eq_some_iff.1 hcomment
    rw [htext, String.toList_append, hrest, Text.lexemes_comment (by decide)]
    decide
  cases line with
  | code instruction =>
      have htext : (code instruction).text.toList =
          "   ".toList ++ ' ' :: instruction.text.toList := by
        simp [text]
      have hblanks : lexemes "   ".toList = [] := by decide
      rw [Row.statement?, htext, Text.lexemes_blank (by decide), hblanks, List.nil_append,
        Statement.ofLexemes?, instruction.ofLexemes?_text]
      rfl
  | label index =>
      have htext : (label index).text.toList = (Reference.mark index).text.toList ++ ':' :: [] := by
        simp [text, Reference.text]
      have hlexemes : lexemes (label index).text.toList =
          [.word (Reference.mark index).text, .mark ':'] := by
        rw [htext, Text.lexemes_mark (Reference.mark index).bare_text (by decide),
          Reference.lexemes_text]
        rfl
      rw [Row.statement?, hlexemes, Statement.ofLexemes?_reference, Statement.ofDirective?,
        Reference.ofText?_text]
      rfl
  | source shown =>
      rw [Row.statement?, hcomment rfl]
      rfl
  | report diagnostic =>
      rw [Row.statement?, hcomment rfl]
      rfl

/-- Numbers with commas between them. -/
theorem lexemes_numbers (numbers : List Nat) :
    lexemes ([','].intercalate (numbers.map fun n => n.repr.toList)) =
      [Lexeme.mark ','].intercalate (numbers.map fun n => [.word n.repr]) := by
  induction numbers with
  | nil => rfl
  | cons n rest ih =>
      cases rest with
      | nil => simpa using Text.lexemes_natural n
      | cons next rest =>
          rw [List.map_cons, List.map_cons] at ih
          rw [List.map_cons, List.map_cons, List.map_cons, List.map_cons,
            List.intercalate_cons_cons, List.intercalate_cons_cons, List.append_assoc,
            List.singleton_append, Text.lexemes_mark (Text.lacks_natural n).bare (by decide), ih,
            Text.lexemes_natural, List.append_assoc]
          rfl

/-- Each number is an item of its own. -/
theorem operands_numbers {numbers : List Nat} (h : numbers ≠ []) :
    operands (lexemes ([','].intercalate (numbers.map fun n => n.repr.toList))) =
      numbers.map fun n => [.word n.repr] := by
  have hsplit := List.splitOn_intercalate (Lexeme.mark ',')
    (by simp : ∀ item ∈ numbers.map fun n => [Lexeme.word n.repr], .mark ',' ∉ item)
    (mt List.map_eq_nil_iff.1 h)
  rw [lexemes_numbers, operands]
  split
  · next hempty =>
      rw [hempty] at hsplit
      cases numbers <;> cases hsplit
  · exact hsplit

theorem mapM_itemBytes? (bytes : List UInt8) :
    (bytes.map fun byte => [Lexeme.word byte.toNat.repr]).mapM itemBytes? =
      some (bytes.map fun byte => [byte]) := by
  induction bytes with
  | nil => rfl
  | cons byte rest ih =>
      rw [List.map_cons, List.mapM_cons, ih, itemBytes?, Text.byte?_repr]
      rfl

/-- A row with a symbol and a directive in front of its comment. -/
theorem lexemes_row {row : String} {code comment : List Char} (reference : Reference)
    (directive : String) (hdirective : Bare directive.toList) (hcode : Bare code)
    (hrow : row.toList = reference.text.toList ++ ' ' :: (directive.toList ++ ' ' ::
      (code ++ ' ' :: ("   ".toList ++ ';' :: comment)))) :
    lexemes row.toList =
      .word reference.text :: (lexemes directive.toList ++ lexemes code) := by
  have hblanks : lexemes "   ".toList = [] := by decide
  rw [hrow, Text.lexemes_blank reference.bare_text, reference.lexemes_text,
    Text.lexemes_blank hdirective, Text.lexemes_blank hcode, Text.lexemes_comment (by decide),
    hblanks, List.append_nil, List.singleton_append]

/-- A name is laid down with all its bytes. -/
theorem Listing.statement?_nameRow (index : Nat) {x : String} (h : x ≠ "") :
    Row.statement? (nameRow index x) = some (.bytes (.name index) (Text.utf8 x ++ [0])) := by
  let numbers := (Text.utf8 x ++ [0]).map UInt8.toNat
  have hnumbers : numbers ≠ [] := by simp [numbers]
  have hbare : Bare ([','].intercalate (numbers.map fun n => n.repr.toList)) := by
    have hnumber : ∀ number ∈ numbers.map fun n => n.repr.toList, Bare number := by
      intro number hmem
      obtain ⟨n, _, rfl⟩ := List.mem_map.1 hmem
      exact (Text.lacks_natural n).bare
    exact ⟨Text.notMem_intercalate (by decide) fun number hmem => (hnumber number hmem).1,
      Text.notMem_intercalate (by decide) fun number hmem => (hnumber number hmem).2⟩
  have hrow : (nameRow index x).toList = (Reference.symbol (.name index)).text.toList ++ ' ' ::
      ("db".toList ++ ' ' :: ([','].intercalate (numbers.map fun n => n.repr.toList) ++ ' ' ::
        ("   ".toList ++ ';' :: ' ' :: x.toList))) := by
    rw [nameRow_eq_of_ne_empty index h]
    simp [numbers, Reference.text, Symbol.text, Function.comp_def]
  have hdirective : lexemes "db".toList = [.word "db"] := by decide
  rw [Row.statement?, lexemes_row _ _ (by decide) hbare hrow, hdirective, List.singleton_append,
    Statement.ofLexemes?_reference, Statement.ofDirective?, operands_numbers hnumbers,
    List.map_map]
  simp only [Function.comp_def]
  have hbytes : ((Text.utf8 x ++ [0]).map fun byte => [byte]).flatten = Text.utf8 x ++ [0] :=
    List.flatMap_singleton' _
  rw [mapM_itemBytes?, Reference.text, Symbol.ofText?_text]
  exact congrArg (fun bytes => some (Statement.bytes (.name index) bytes)) hbytes

theorem Listing.statement?_cellRow (index : Nat) (x : String) :
    Row.statement? (cellRow index x) = some (.cell (.cell index)) := by
  have hrow : (cellRow index x).toList = (Reference.symbol (.cell index)).text.toList ++ ' ' ::
      ("resd".toList ++ ' ' :: ("1".toList ++ ' ' ::
        ("   ".toList ++ ';' :: ' ' :: x.toList))) := by
    simp [cellRow, Reference.text]
  have hlexemes : lexemes "resd".toList ++ lexemes "1".toList = [.word "resd", .word "1"] := by
    decide
  rw [Row.statement?, lexemes_row _ _ (by decide) (by decide) hrow, hlexemes,
    Statement.ofLexemes?_reference]
  exact congrArg (Option.map Statement.cell) (Symbol.cell index).ofText?_text

end Rows

section Files

variable {recover : Bool} {source : String} {listing : Listing}

theorem mapM_append_eq_some {α β : Type} {f : α → Option β} {first second : List α}
    {results later : List β} (hfirst : first.mapM f = some results)
    (hsecond : second.mapM f = some later) :
    (first ++ second).mapM f = some (results ++ later) := by
  rw [List.mapM_append, hfirst, hsecond]
  rfl

theorem mapM_map_eq_some {α β γ : Type} {f : β → Option γ} {g : α → β} {k : α → γ}
    {items : List α} (h : ∀ item ∈ items, f (g item) = some (k item)) :
    (items.map g).mapM f = some (items.map k) := by
  induction items with
  | nil => rfl
  | cons item rest ih =>
      rw [List.map_cons, List.mapM_cons, h item List.mem_cons_self,
        ih fun later hlater => h later (List.mem_cons_of_mem item hlater)]
      rfl

theorem foldlM_append_eq_some {α β : Type} {f : β → α → Option β} {first second : List α}
    {start middle last : β} (hfirst : first.foldlM f start = some middle)
    (hsecond : second.foldlM f middle = some last) :
    (first ++ second).foldlM f start = some last := by
  rw [List.foldlM_append, hfirst]
  exact hsecond

/-- Statements that leave a region as it is. -/
theorem foldlM_next?_of_forall {region : Region} {statements : List Statement}
    (h : ∀ statement ∈ statements, region.next? statement = some region) :
    statements.foldlM Region.next? region = some region := by
  induction statements with
  | nil => rfl
  | cons statement rest ih =>
      rw [List.foldlM_cons, h statement List.mem_cons_self]
      exact ih fun later hlater => h later (List.mem_cons_of_mem statement hlater)

namespace Listing

/-- The code of a listing, with what comes before and after it. -/
def program (listing : Listing) : List TextLine :=
  prologue.map .code ++ listing.assembled ++ epilogue.map .code

/-- The strings in the data. -/
def strings (listing : Listing) : List (Symbol × List UInt8) :=
  Format.all.map (fun format => (.format format, format.bytes ++ [0])) ++
    listing.names.zipIdx.map fun entry => (.name entry.2, Text.utf8 entry.1 ++ [0])

/-- The statements of a file. -/
def statements (listing : Listing) : List Statement :=
  ([.exported .main, .imported .printf, .nothing, .begins .text, .label .main] ++
      prologue.map .code) ++
    listing.text.map TextLine.statement ++ (epilogue.map .code ++ [.nothing, .begins .data]) ++
    listing.strings.map (fun entry => .bytes entry.1 entry.2) ++
    [.nothing, .begins .storage, .cell .stackStart] ++
    listing.vars.zipIdx.map fun entry => .cell (.cell entry.2)

/-- The file is read row by row. -/
theorem mapM_statement?_lines (hnames : ∀ x ∈ listing.names, x ≠ "") :
    listing.lines.mapM Row.statement? = some listing.statements := by
  have hopening : opening.mapM Row.statement? = some
      ([.exported .main, .imported .printf, .nothing, .begins .text, .label .main] ++
        prologue.map .code) := by
    decide +kernel
  have hclosing : closing.mapM Row.statement? =
      some (epilogue.map .code ++ [.nothing, .begins .data]) := by
    decide +kernel
  have hformats : formats.mapM Row.statement? = some
      ((Format.all.map fun format => (.format format, format.bytes ++ [0])).map
        fun entry => .bytes entry.1 entry.2) := by
    decide +kernel
  have hstorage : storage.mapM Row.statement? =
      some [.nothing, .begins .storage, .cell .stackStart] := by
    decide +kernel
  have htext : (listing.text.map TextLine.text).mapM Row.statement? =
      some (listing.text.map TextLine.statement) :=
    mapM_map_eq_some fun line _ => line.statement?_text
  have hdata : listing.data.mapM Row.statement? = some
      ((listing.names.zipIdx.map fun entry => (.name entry.2, Text.utf8 entry.1 ++ [0])).map
        fun entry => .bytes entry.1 entry.2) := by
    rw [List.map_map]
    exact mapM_map_eq_some fun entry hentry =>
      statement?_nameRow entry.2 (hnames entry.1 (List.fst_mem_of_mem_zipIdx hentry))
  have hcells : listing.cells.mapM Row.statement? =
      some (listing.vars.zipIdx.map fun entry => .cell (.cell entry.2)) :=
    mapM_map_eq_some fun entry _ => statement?_cellRow entry.2 entry.1
  have hstrings : (formats ++ listing.data).mapM Row.statement? =
      some (listing.strings.map fun entry => .bytes entry.1 entry.2) := by
    rw [strings, List.map_append]
    exact mapM_append_eq_some hformats hdata
  rw [lines_eq, List.append_assoc _ formats]
  exact mapM_append_eq_some (mapM_append_eq_some (mapM_append_eq_some
    (mapM_append_eq_some (mapM_append_eq_some hopening htext) hclosing) hstrings) hstorage) hcells

/-- Each statement stands in its section. -/
theorem foldlM_next?_statements (listing : Listing) :
    listing.statements.foldlM Region.next? .opening = some .storage := by
  have hopening : (([.exported .main, .imported .printf, .nothing, .begins .text, .label .main] ++
      prologue.map .code : List Statement)).foldlM Region.next? .opening = some .main := by
    decide
  have htext : (listing.text.map TextLine.statement).foldlM Region.next? .main = some .main := by
    apply foldlM_next?_of_forall
    intro statement hmem
    obtain ⟨line, _, rfl⟩ := List.mem_map.1 hmem
    cases line <;> rfl
  have hclosing : ((epilogue.map .code ++ [.nothing, .begins .data] : List Statement)).foldlM
      Region.next? .main = some .data := by
    decide
  have hstrings : (listing.strings.map fun entry => Statement.bytes entry.1 entry.2).foldlM
      Region.next? .data = some .data := by
    apply foldlM_next?_of_forall
    intro statement hmem
    obtain ⟨entry, hentry, rfl⟩ := List.mem_map.1 hmem
    rcases List.mem_append.1 hentry with hentry | hentry
    · obtain ⟨format, _, rfl⟩ := List.mem_map.1 hentry
      rfl
    · obtain ⟨name, _, rfl⟩ := List.mem_map.1 hentry
      rfl
  have hstorage : ([.nothing, .begins .storage, .cell .stackStart] : List Statement).foldlM
      Region.next? .data = some .storage := by
    decide
  have hcells : (listing.vars.zipIdx.map fun entry => Statement.cell (.cell entry.2)).foldlM
      Region.next? .storage = some .storage := by
    apply foldlM_next?_of_forall
    intro statement hmem
    obtain ⟨entry, _, rfl⟩ := List.mem_map.1 hmem
    rfl
  exact foldlM_append_eq_some (foldlM_append_eq_some (foldlM_append_eq_some
    (foldlM_append_eq_some (foldlM_append_eq_some hopening htext) hclosing) hstrings) hstorage)
      hcells

/-- What comes of the file of a listing. -/
def image (listing : Listing) : Image where
  main := listing.program
  strings := listing.strings
  cells := .stackStart :: (List.range listing.vars.length).map .cell

theorem filterMap_line?_statements (listing : Listing) :
    listing.statements.filterMap Statement.line? = listing.program := by
  have htext : (listing.text.map TextLine.statement).filterMap Statement.line? =
      listing.assembled := by
    rw [List.filterMap_map, assembled, ← List.filterMap_eq_filter]
    apply List.filterMap_congr
    intro line _
    cases line <;> rfl
  simp only [statements, List.filterMap_append, htext]
  simp [program, List.filterMap_cons, Function.comp_def, Statement.line?]

/-- The text lays down neither strings nor cells. -/
theorem filterMap_text_eq_nil (listing : Listing) :
    (listing.text.map TextLine.statement).filterMap Statement.string? = [] ∧
      (listing.text.map TextLine.statement).filterMap Statement.cell? = [] := by
  simp only [List.filterMap_map, List.filterMap_eq_nil_iff]
  constructor <;>
  · intro line _
    cases line <;> rfl

theorem filterMap_string?_statements (listing : Listing) :
    listing.statements.filterMap Statement.string? = listing.strings := by
  simp only [statements, List.filterMap_append, listing.filterMap_text_eq_nil.1]
  simp [List.filterMap_cons, Function.comp_def, Statement.string?]

theorem filterMap_cell?_statements (listing : Listing) :
    listing.statements.filterMap Statement.cell? = listing.image.cells := by
  have hcells : listing.vars.zipIdx.map (fun entry => Symbol.cell entry.2) =
      (List.range listing.vars.length).map .cell := by
    rw [List.range_eq_range', ← List.zipIdx_map_snd 0 listing.vars, List.map_map]
    rfl
  simp only [statements, List.filterMap_append, listing.filterMap_text_eq_nil.2]
  simp [image, List.filterMap_cons, Function.comp_def, Statement.cell?, ← hcells]

end Listing

/-- The file of every listing is assembled. -/
theorem compile_assembles (h : compile recover source = .ok listing) :
    Image.ofRows? (Text.rows listing.render) = some listing.image := by
  have hnames : ∀ x ∈ listing.names, x ≠ "" :=
    fun x hx => ((isIdentifier_of_compile h).1 x hx).nonempty
  have hread : (Text.rows listing.render).mapM Row.statement? = some listing.statements := by
    rw [rows_render h]
    exact Listing.mapM_statement?_lines hnames
  have hentry : .exported .main ∈ listing.statements ∧ .label .main ∈ listing.statements := by
    simp [Listing.statements]
  rw [Image.ofRows?, hread]
  simp only [Option.bind_eq_bind, Option.bind_some, listing.foldlM_next?_statements,
    listing.filterMap_line?_statements, listing.filterMap_string?_statements,
    listing.filterMap_cell?_statements]
  exact if_pos ⟨hentry.1, hentry.2, link_rows h⟩

end Files

end Assembly

end StraightForth
