import StraightForth.Proofs.Forms

/-!
# What rows define and use

The assembler reads a row as words. A word that means nothing to it is a symbol, which the row
defines if it stands at the margin, and uses otherwise. The main statements tell the symbols of
every row that a listing may have.

## Implementation notes

The reader of this module knows the words of the assembler, but nothing of the compiler. A word
that it does not know is a symbol, so it takes no row for harmless that is not.
-/

namespace StraightForth

namespace Text

/-- The characters that the assembler takes as code: they stand neither in a string nor in a
comment. A string leaves its quotes as blanks. -/
def code (quoted : Bool) : List Char → List Char
  | [] => []
  | c :: rest =>
      if c = '"' then ' ' :: code (!quoted) rest
      else if quoted then code quoted rest
      else if c = ';' then []
      else c :: code quoted rest

/-- A character of a word. -/
def isWordChar (c : Char) : Bool :=
  c.isAlphanum || c ∈ ['_', '$', '#', '@', '~', '.', '?']

/-- The words of a code. -/
def words (code : List Char) : List (List Char) :=
  (code.splitOnP fun c => !isWordChar c).filter (· ≠ [])

/-- The words that mean something to the assembler. -/
def assemblerWords : List (List Char) :=
  ["global", "extern", "section", ".text", ".data", ".bss", "db", "resd", "dword", "eax", "ebx",
    "edx", "esp", "push", "pop", "add", "sub", "imul", "neg", "mov", "xor", "cmp", "je", "cdq",
    "idiv", "call", "ret"].map String.toList

/-- Any other word is a symbol, unless it is a number. -/
def isSymbol (word : List Char) : Bool :=
  !word.head?.any Char.isDigit && word ∉ assemblerWords

/-- The symbols of a code. -/
def symbols (code : List Char) : List String :=
  ((words code).filter isSymbol).map String.ofList

end Text

namespace Row

/-- Instructions are indented. -/
def isIndented (row : String) : Bool := row.toList.head? = some ' '

/-- The words of a row. -/
def words (row : String) : List (List Char) := Text.words (Text.code false row.toList)

/-- The symbols that a row defines or uses. -/
def symbols (row : String) : List String := Text.symbols (Text.code false row.toList)

/-- The symbol that a row defines. An external one is defined elsewhere. -/
def defined? (row : String) : Option String :=
  if isIndented row then none
  else match words row with
    | [] => none
    | word :: rest =>
        if word = "extern".toList then ((rest.filter Text.isSymbol).head?).map String.ofList
        else if Text.isSymbol word then some (String.ofList word)
        else none

/-- The symbols that a row uses. -/
def uses (row : String) : List String :=
  ((if isIndented row then words row else (words row).tail).filter Text.isSymbol).map String.ofList

end Row

namespace Text

variable {text : String} {first second : List Char} {c : Char}

/-- A separator ends a word. -/
theorem words_append (hc : isWordChar c = false) (first second : List Char) :
    words (first ++ c :: second) = words first ++ words second := by
  rw [words, List.splitOnP_append_cons first second (by rw [hc]; rfl), List.filter_append]
  rfl

theorem symbols_append (hc : isWordChar c = false) (first second : List Char) :
    symbols (first ++ c :: second) = symbols first ++ symbols second := by
  rw [symbols, words_append hc, List.filter_append, List.map_append]
  rfl

/-- A word in front brings in nothing if it means something to the assembler. -/
theorem symbols_operand {text : String} (mnemonic operand : String)
    (hmnemonic : symbols mnemonic.toList = [])
    (htext : text.toList = mnemonic.toList ++ ' ' :: operand.toList) :
    symbols text.toList = symbols operand.toList := by
  rw [htext, symbols_append (by decide), hmnemonic, List.nil_append]

theorem symbols_operands {text : String} (mnemonic left right : String)
    (hmnemonic : symbols mnemonic.toList = [])
    (htext : text.toList = mnemonic.toList ++ ' ' :: (left.toList ++ ',' :: ' ' ::
      right.toList)) :
    symbols text.toList = symbols left.toList ++ symbols right.toList := by
  have hright : symbols (' ' :: right.toList) = symbols right.toList := by
    rw [← List.nil_append (' ' :: right.toList), symbols_append (by decide)]
    rfl
  rw [htext, symbols_append (by decide), hmnemonic, symbols_append (by decide), hright,
    List.nil_append]

/-- Word characters make a single word. -/
theorem words_of_all {word : List Char} (hne : word ≠ []) (h : word.all isWordChar = true) :
    words word = [word] := by
  have hall : ∀ c ∈ word, (!isWordChar c) = false := fun c hc => by
    rw [List.all_eq_true.1 h c hc]
    rfl
  simp [words, List.splitOnP_eq_singleton hall, hne]

theorem isWordChar_of_isDigit (h : c.isDigit = true) : isWordChar c = true := by
  simp [isWordChar, Char.isAlphanum, h]

/-- A natural number is a word, and no symbol. -/
theorem words_natural (n : Nat) : words n.repr.toList = [n.repr.toList] := by
  rw [Nat.toList_repr]
  apply words_of_all Nat.toDigits_ne_nil
  have hdigits := Decimal.all_isDigit_toDigits n
  rw [List.all_eq_true] at hdigits ⊢
  exact fun c hc => isWordChar_of_isDigit (hdigits c hc)

theorem isSymbol_toDigits (n : Nat) : isSymbol (Nat.toDigits 10 n) = false := by
  have hdigits := Decimal.all_isDigit_toDigits n
  have hne : Nat.toDigits 10 n ≠ [] := Nat.toDigits_ne_nil
  cases hdigit : Nat.toDigits 10 n with
  | nil => exact (hne hdigit).elim
  | cons c rest =>
      rw [hdigit, List.all_cons, Bool.and_eq_true] at hdigits
      simp [isSymbol, hdigits.1]

theorem symbols_natural (n : Nat) : symbols n.repr.toList = [] := by
  rw [symbols, words_natural]
  simp [isSymbol_toDigits]

/-- Neither is an integer. -/
theorem symbols_integer (n : Int) : symbols n.repr.toList = [] := by
  cases n with
  | ofNat m => exact symbols_natural m
  | negSucc m =>
      have hlist : (Int.negSucc m).repr.toList = [] ++ '-' :: (m + 1).repr.toList := by
        simp [Int.repr]
      rw [hlist, symbols_append (by decide), symbols_natural]
      rfl

/-- Commas separate numbers. -/
theorem words_numbers (numbers : List Nat) :
    words ([','].intercalate (numbers.map fun n => n.repr.toList)) =
      numbers.map fun n => n.repr.toList := by
  induction numbers with
  | nil => rfl
  | cons n rest ih =>
      cases rest with
      | nil => simpa using words_natural n
      | cons next rest =>
          rw [List.map_cons] at ih
          rw [List.map_cons, List.map_cons, List.intercalate_cons_cons, List.append_assoc,
            List.singleton_append, words_append (by decide), ih, words_natural]
          rfl

/-- Numbers with commas between them are no symbols either. -/
theorem symbols_numbers (numbers : List Nat) :
    symbols ([','].intercalate (numbers.map fun n => n.repr.toList)) = [] := by
  rw [symbols, words_numbers]
  simp [List.filter_eq_nil_iff, isSymbol_toDigits]

/-- Up to its comment, a row without strings is code. -/
theorem code_append {comment : List Char} (h : Lacks delimiters text)
    (hcomment : comment = [] ∨ comment.head? = some ';') :
    code false (text.toList ++ comment) = text.toList := by
  have hend : code false comment = [] := by
    rcases hcomment with rfl | hhead
    · rfl
    · obtain ⟨rest, rfl⟩ := List.head?_eq_some_iff.1 hhead
      rfl
  have hquote := h '"' (by decide)
  have hsemicolon := h ';' (by decide)
  generalize text.toList = front at hquote hsemicolon
  induction front with
  | nil => exact hend
  | cons c front ih =>
      obtain ⟨hc, hfront⟩ := not_or.1 (List.mem_cons.not.1 hquote)
      obtain ⟨hc', hfront'⟩ := not_or.1 (List.mem_cons.not.1 hsemicolon)
      rw [List.cons_append, code, if_neg (Ne.symm hc), if_neg Bool.false_ne_true,
        if_neg (Ne.symm hc'), ih hfront hfront']

end Text

namespace Assembly

section References

/-- What a symbol of a file stands for. -/
inductive Reference
  | main
  | printf
  /-- A label in the text. -/
  | mark (index : Nat)
  /-- Anything in the data, or a cell. -/
  | symbol (symbol : Symbol)
deriving DecidableEq

namespace Reference

/-- How the symbol is written. -/
def text : Reference → String
  | main => "main"
  | printf => "printf"
  | mark index => labelText index
  | symbol s => s.text

/-- A stem with a number behind it is a symbol. -/
theorem isSymbol_numbered {stem : String} (hword : stem.toList.all Text.isWordChar = true)
    (hhead : (stem.toList.head?.any fun c => !c.isDigit) = true)
    (hstem : (Text.assemblerWords.all fun word => !stem.toList.isPrefixOf word) = true) (n : Nat) :
    Text.words (stem ++ n.repr).toList = [(stem ++ n.repr).toList] ∧
      Text.isSymbol (stem ++ n.repr).toList = true := by
  rw [String.toList_append]
  have hdigits := Decimal.all_isDigit_toDigits n
  rw [← Nat.toList_repr, List.all_eq_true] at hdigits
  generalize n.repr.toList = digits at hdigits
  cases hlist : stem.toList with
  | nil =>
      rw [hlist] at hhead
      cases hhead
  | cons c rest =>
      rw [hlist] at hword hhead hstem
      constructor
      · have hall : (c :: rest ++ digits).all Text.isWordChar = true := by
          rw [List.all_append, hword, Bool.true_and, List.all_eq_true]
          exact fun c hc => Text.isWordChar_of_isDigit (hdigits c hc)
        exact Text.words_of_all (List.cons_ne_nil _ _) hall
      · -- No word of the assembler starts with the stem, whatever digits come behind it.
        have hreserved : c :: rest ++ digits ∉ Text.assemblerWords := by
          intro hmem
          have hnot := List.all_eq_true.1 hstem _ hmem
          rw [List.isPrefixOf_iff_prefix.2 (List.prefix_append _ _)] at hnot
          cases hnot
        have hletter : c.isDigit = false := by simpa using hhead
        rw [Text.isSymbol, decide_eq_true hreserved, List.cons_append, List.head?_cons]
        simp [hletter]

theorem isSymbol_text (reference : Reference) :
    Text.words reference.text.toList = [reference.text.toList] ∧
      Text.isSymbol reference.text.toList = true := by
  cases reference with
  | main => decide
  | printf => decide
  | mark index => exact isSymbol_numbered (by decide) (by decide) (by decide) index
  | symbol symbol =>
      cases symbol with
      | name index => exact isSymbol_numbered (by decide) (by decide) (by decide) index
      | cell index => exact isSymbol_numbered (by decide) (by decide) (by decide) index
      | format format => cases format <;> decide
      | stackStart => decide

@[simp] theorem symbols_text (reference : Reference) :
    Text.symbols reference.text.toList = [reference.text] := by
  obtain ⟨hwords, hsymbol⟩ := reference.isSymbol_text
  rw [Text.symbols, hwords, List.filter_cons_of_pos hsymbol, List.filter_nil, List.map_singleton,
    String.ofList_toList]

/-- The references that have no number. -/
def fixed : List Reference :=
  [.main, .printf, .symbol .stackStart] ++ Format.all.map fun format => .symbol (.format format)

/-- The references that have no number, with their texts. -/
def table : List (String × Reference) :=
  [("main", .main), ("printf", .printf), ("stack_start", .symbol .stackStart),
    ("fmt_int", .symbol (.format .integer)), ("fmt_name", .symbol (.format .name)),
    ("dots_int", .symbol (.format .itemInteger)), ("dots_name", .symbol (.format .itemName)),
    ("dots_open", .symbol (.format .dumpOpen)), ("dots_sep", .symbol (.format .dumpSeparator)),
    ("dots_close", .symbol (.format .dumpClose))]

/-- The reference that is written in a given way. -/
def ofText? : List Char → Option Reference
  | 'm' :: 'o' :: 'd' :: '_' :: digits => (Decimal.natural? digits).map .mark
  | 'n' :: 'a' :: 'm' :: 'e' :: '_' :: digits =>
      (Decimal.natural? digits).map fun index => .symbol (.name index)
  | 'v' :: 'a' :: 'r' :: '_' :: digits =>
      (Decimal.natural? digits).map fun index => .symbol (.cell index)
  | text => (table.find? fun entry => entry.1.toList = text).map Prod.snd

theorem ofText?_text (reference : Reference) : ofText? reference.text.toList = some reference := by
  cases reference with
  | main => decide
  | printf => decide
  | mark index => simp [text, labelText, ofText?]
  | symbol symbol =>
      cases symbol with
      | name index => simp [text, Symbol.text, ofText?]
      | cell index => simp [text, Symbol.text, ofText?]
      | format format => cases format <;> decide
      | stackStart => decide

/-- No two references are written alike. -/
theorem text_injective {first second : Reference} (h : first.text = second.text) :
    first = second := by
  have hread := second.ofText?_text
  rw [← h, first.ofText?_text] at hread
  exact Option.some.inj hread

end Reference

end References

section Instructions

/-- The references of a place in memory. -/
def Memory.references : Memory → List Reference
  | .symbol s => [.symbol s]
  | .top | .below _ => []

/-- The references of an instruction. -/
def Instruction.references : Instruction → List Reference
  | .pushAddress s => [.symbol s]
  | .pushMemory place | .addTo place _ | .subtractFrom place _ | .multiplyBy _ place
  | .negate place | .load _ place | .save place _ => place.references
  | .skipIfEqual index => [.mark index]
  | .callPrintf => [.printf]
  | .pushInt _ | .pushRegister _ | .pop _ | .release _ | .zero _ | .compare .. | .extendSign
  | .divide _ | .ret => []

theorem Register.symbols_text (register : Register) : Text.symbols register.text.toList = [] := by
  cases register <;> decide

theorem Memory.symbols_text (place : Memory) :
    Text.symbols place.text.toList = place.references.map Reference.text := by
  cases place with
  | top => decide
  | below cells =>
      have htext : (Memory.below cells).text.toList =
          "[esp".toList ++ '+' :: ((4 * cells).repr.toList ++ ']' :: []) := by
        simp [Memory.text]
      have hbase : Text.symbols "[esp".toList = [] := by decide
      rw [htext, Text.symbols_append (by decide), Text.symbols_append (by decide),
        Text.symbols_natural, hbase]
      rfl
  | symbol symbol =>
      have htext : (Memory.symbol symbol).text.toList =
          [] ++ '[' :: ((Reference.symbol symbol).text.toList ++ ']' :: []) := by
        simp [Memory.text, Reference.text]
      rw [htext, Text.symbols_append (by decide), Text.symbols_append (by decide),
        Reference.symbols_text]
      rfl

theorem Instruction.symbols_text (instruction : Instruction) :
    Text.symbols instruction.text.toList = instruction.references.map Reference.text := by
  cases instruction with
  | pushInt value =>
      rw [Text.symbols_operand "push dword" value.toInt.repr (by decide) (by simp [text])]
      exact Text.symbols_integer value.toInt
  | pushAddress symbol =>
      rw [Text.symbols_operand "push" (Reference.symbol symbol).text (by decide)
        (by simp [text, Reference.text])]
      exact Reference.symbols_text _
  | pushRegister source =>
      rw [Text.symbols_operand "push" source.text (by decide) (by simp [text])]
      exact source.symbols_text
  | pushMemory source =>
      rw [Text.symbols_operand "push dword" source.text (by decide) (by simp [text])]
      exact source.symbols_text
  | pop target =>
      rw [Text.symbols_operand "pop" target.text (by decide) (by simp [text])]
      exact target.symbols_text
  | negate target =>
      rw [Text.symbols_operand "neg dword" target.text (by decide) (by simp [text])]
      exact target.symbols_text
  | divide divisor =>
      rw [Text.symbols_operand "idiv" divisor.text (by decide) (by simp [text])]
      exact divisor.symbols_text
  | skipIfEqual index =>
      rw [Text.symbols_operand "je" (Reference.mark index).text (by decide)
        (by simp [text, Reference.text])]
      exact Reference.symbols_text _
  | addTo target source =>
      rw [Text.symbols_operands "add" target.text source.text (by decide) (by simp [text]),
        target.symbols_text, source.symbols_text, List.append_nil]
      rfl
  | subtractFrom target source =>
      rw [Text.symbols_operands "sub" target.text source.text (by decide) (by simp [text]),
        target.symbols_text, source.symbols_text, List.append_nil]
      rfl
  | multiplyBy target source =>
      rw [Text.symbols_operands "imul" target.text source.text (by decide) (by simp [text]),
        target.symbols_text, source.symbols_text]
      rfl
  | load target source =>
      rw [Text.symbols_operands "mov" target.text source.text (by decide) (by simp [text]),
        target.symbols_text, source.symbols_text]
      rfl
  | save target source =>
      rw [Text.symbols_operands "mov" target.text source.text (by decide) (by simp [text]),
        target.symbols_text, source.symbols_text, List.append_nil]
      rfl
  | release cells =>
      rw [Text.symbols_operands "add" "esp" (4 * cells).repr (by decide) (by simp [text]),
        Text.symbols_natural, List.append_nil]
      exact Register.esp.symbols_text
  | zero target =>
      rw [Text.symbols_operands "xor" target.text target.text (by decide) (by simp [text]),
        target.symbols_text]
      rfl
  | compare left right =>
      rw [Text.symbols_operands "cmp" left.text right.toInt.repr (by decide) (by simp [text]),
        left.symbols_text, Text.symbols_integer]
      rfl
  | extendSign => decide
  | callPrintf => decide
  | ret => decide

end Instructions

section Rows

/-- An indented row defines nothing. -/
theorem Row.of_isIndented {row : String} (h : Row.isIndented row = true) :
    Row.defined? row = none ∧ Row.uses row = Row.symbols row := by
  rw [Row.defined?, if_pos h, Row.uses, if_pos h]
  exact ⟨rfl, rfl⟩

/-- A row at the margin that starts with a symbol defines it. -/
theorem Row.of_words {row : String} {reference : Reference} {rest : List (List Char)}
    (h : Row.isIndented row = false) (hwords : Row.words row = reference.text.toList :: rest) :
    Row.defined? row = some reference.text ∧
      Row.uses row = (rest.filter Text.isSymbol).map String.ofList := by
  have hsymbol := reference.isSymbol_text.2
  have hexternal : reference.text.toList ≠ "extern".toList := by
    intro hsame
    rw [hsame] at hsymbol
    revert hsymbol
    decide
  have hmargin : ¬ Row.isIndented row = true := by
    rw [h]
    exact Bool.false_ne_true
  rw [Row.defined?, if_neg hmargin, Row.uses, if_neg hmargin, hwords]
  constructor
  · dsimp only
    rw [if_neg hexternal, if_pos hsymbol, String.ofList_toList]
  · rfl

/-- Whatever symbol stands in a row is defined or used there. -/
theorem Row.mem_symbols_iff {row symbol : String} :
    symbol ∈ Row.symbols row ↔ Row.defined? row = some symbol ∨ symbol ∈ Row.uses row := by
  by_cases hindent : Row.isIndented row = true
  · obtain ⟨hdefined, huses⟩ := Row.of_isIndented hindent
    rw [hdefined, huses]
    simp
  · rw [Row.defined?, if_neg hindent, Row.uses, if_neg hindent, Row.symbols, Text.symbols]
    change symbol ∈ ((Row.words row).filter Text.isSymbol).map String.ofList ↔ _
    cases Row.words row with
    | nil => simp
    | cons word rest =>
        have hexternal : Text.isSymbol "extern".toList = false := by decide
        by_cases hword : word = "extern".toList
        · rw [hword, List.filter_cons_of_neg (by rw [hexternal]; exact Bool.false_ne_true)]
          dsimp only
          rw [if_pos rfl, List.tail_cons, Option.map_eq_some_iff]
          constructor
          · exact .inr
          · rintro (⟨first, hfirst, rfl⟩ | h)
            · exact List.mem_map_of_mem (List.mem_of_head? hfirst)
            · exact h
        · dsimp only
          rw [if_neg hword, List.tail_cons]
          by_cases hsymbol : Text.isSymbol word = true
          · rw [if_pos hsymbol, List.filter_cons_of_pos hsymbol, List.map_cons, List.mem_cons,
              Option.some.injEq, eq_comm]
          · rw [if_neg hsymbol, List.filter_cons_of_neg hsymbol]
            simp

namespace TextLine

/-- The reference that a line defines. -/
def defined? : TextLine → Option Reference
  | label index => some (.mark index)
  | code _ | source _ | report _ => none

/-- The references that a line uses. -/
def references : TextLine → List Reference
  | code instruction => instruction.references
  | label _ | source _ | report _ => []

theorem symbols_code (instruction : Instruction) :
    Row.symbols (code instruction).text = instruction.references.map Reference.text := by
  have hlacks : Text.Lacks Text.delimiters (code instruction).text := lacks_text rfl
  have hindent : (code instruction).text.toList =
      "   ".toList ++ ' ' :: instruction.text.toList := by
    simp [text]
  have hblanks : Text.symbols "   ".toList = [] := by decide
  rw [Row.symbols, ← List.append_nil (code instruction).text.toList,
    Text.code_append hlacks (.inl rfl), hindent, Text.symbols_append (by decide), hblanks,
    instruction.symbols_text, List.nil_append]

/-- A comment has no symbols. -/
theorem symbols_comment {comment : String} (h : comment.toList.head? = some ';') :
    Row.symbols ("    " ++ comment) = [] := by
  rw [Row.symbols, String.toList_append, Text.code_append (by decide) (.inr h)]
  decide

/-- What stands in a row of the text is what its line is made of. -/
theorem row_text (line : TextLine) :
    Row.defined? line.text = line.defined?.map Reference.text ∧
      Row.uses line.text = line.references.map Reference.text := by
  have hcomment (hread : line.isAssembled = false) :
      Row.defined? line.text = none ∧ Row.uses line.text = [] := by
    obtain ⟨comment, hcomment, htext⟩ := exists_comment hread
    have hindent : Row.isIndented ("    " ++ comment) = true := by simp [Row.isIndented]
    obtain ⟨hdefined, huses⟩ := Row.of_isIndented hindent
    rw [htext]
    exact ⟨hdefined, huses.trans (symbols_comment hcomment)⟩
  cases line with
  | code instruction =>
      have hindent : Row.isIndented (code instruction).text = true := by
        simp [Row.isIndented, text]
      obtain ⟨hdefined, huses⟩ := Row.of_isIndented hindent
      exact ⟨hdefined, huses.trans (symbols_code instruction)⟩
  | source line => exact hcomment rfl
  | report report => exact hcomment rfl
  | label index =>
      have hlacks : Text.Lacks Text.delimiters (label index).text := lacks_text rfl
      have htext : (label index).text.toList = (Reference.mark index).text.toList ++ ':' :: [] := by
        simp [text, Reference.text]
      have hwords : Row.words (label index).text = (Reference.mark index).text.toList :: [] := by
        rw [Row.words, ← List.append_nil (label index).text.toList,
          Text.code_append hlacks (.inl rfl), htext, Text.words_append (by decide),
          (Reference.mark index).isSymbol_text.1]
        rfl
      exact Row.of_words (by simp [Row.isIndented, text, labelText]) hwords

end TextLine

namespace Listing

theorem row_nameRow (index : Nat) (name : String) :
    Row.defined? (nameRow index name) = some (Reference.symbol (.name index)).text ∧
      Row.uses (nameRow index name) = [] := by
  let numbers := [','].intercalate
    (((Text.utf8 name).map UInt8.toNat).map fun n => n.repr.toList)
  let operands := "db".toList ++ ' ' :: (numbers ++ ',' :: "0    ".toList)
  have hcode : (nameCode index name).toList =
      (Reference.symbol (.name index)).text.toList ++ ' ' :: operands := by
    simp [nameCode, Reference.text, operands, numbers, Function.comp_def]
  have hwords : Row.words (nameRow index name) =
      (Reference.symbol (.name index)).text.toList :: Text.words operands := by
    rw [Row.words, nameRow_eq, String.toList_append,
      Text.code_append (lacks_nameCode index name) (.inr (by simp)), hcode,
      Text.words_append (by decide), (Reference.symbol (.name index)).isSymbol_text.1]
    rfl
  have hoperands : Text.symbols operands = [] := by
    rw [Text.symbols_append (by decide), Text.symbols_append (by decide), Text.symbols_numbers]
    decide
  obtain ⟨hdefined, huses⟩ :=
    Row.of_words (by simp [Row.isIndented, nameRow, Symbol.text]) hwords
  exact ⟨hdefined, huses.trans hoperands⟩

theorem row_cellRow (index : Nat) (name : String) :
    Row.defined? (cellRow index name) = some (Reference.symbol (.cell index)).text ∧
      Row.uses (cellRow index name) = [] := by
  have hcode : (cellCode index).toList =
      (Reference.symbol (.cell index)).text.toList ++ ' ' :: "resd 1    ".toList := by
    simp [cellCode, Reference.text]
  have hwords : Row.words (cellRow index name) =
      (Reference.symbol (.cell index)).text.toList :: Text.words "resd 1    ".toList := by
    rw [Row.words, cellRow_eq, String.toList_append,
      Text.code_append (lacks_cellCode index) (.inr (by simp)), hcode,
      Text.words_append (by decide), (Reference.symbol (.cell index)).isSymbol_text.1]
    rfl
  have hoperands : Text.symbols "resd 1    ".toList = [] := by decide
  obtain ⟨hdefined, huses⟩ :=
    Row.of_words (by simp [Row.isIndented, cellRow, Symbol.text]) hwords
  exact ⟨hdefined, huses.trans hoperands⟩

/-- The references that a file defines, or declares external, in their order. -/
def definitions (listing : Listing) : List Reference :=
  [.printf, .main] ++ listing.text.filterMap TextLine.defined? ++
    Format.all.map (fun format => .symbol (.format format)) ++
    (List.range listing.names.length).map (fun index => .symbol (.name index)) ++
    [.symbol .stackStart] ++
    (List.range listing.vars.length).map fun index => .symbol (.cell index)

theorem filterMap_defined?_lines (listing : Listing) :
    listing.lines.filterMap Row.defined? = listing.definitions.map Reference.text := by
  have hopening : opening.filterMap Row.defined? =
      [Reference.printf, .main].map Reference.text := by
    decide
  have htext : (listing.text.map TextLine.text).filterMap Row.defined? =
      (listing.text.filterMap TextLine.defined?).map Reference.text := by
    rw [List.filterMap_map, List.map_filterMap]
    apply List.filterMap_congr
    exact fun line _ => line.row_text.1
  have hclosing : closing.filterMap Row.defined? = [] := by decide
  have hformats : formats.filterMap Row.defined? =
      (Format.all.map fun format => Reference.symbol (.format format)).map Reference.text := by
    decide
  have hstorage : storage.filterMap Row.defined? =
      [Reference.symbol .stackStart].map Reference.text := by
    decide
  have hnumbered {row : Nat → String → String} {reference : Nat → Reference}
      (hrow : ∀ index x, Row.defined? (row index x) = some (reference index).text)
      (items : List String) :
      (items.zipIdx.map fun entry => row entry.2 entry.1).filterMap Row.defined? =
        ((List.range items.length).map reference).map Reference.text := by
    calc
      _ = items.zipIdx.map fun entry => (reference entry.2).text := by
        rw [List.filterMap_map, ← List.filterMap_eq_map]
        apply List.filterMap_congr
        exact fun entry _ => hrow entry.2 entry.1
      _ = (items.zipIdx.map Prod.snd).map fun index => (reference index).text := by
        rw [List.map_map]
        rfl
      _ = ((List.range items.length).map reference).map Reference.text := by
        rw [List.zipIdx_map_snd, ← List.range_eq_range', List.map_map]
        rfl
  rw [lines_eq]
  simp only [List.filterMap_append, hopening, htext, hclosing, hformats, hstorage, data, cells,
    hnumbered (fun index x => (row_nameRow index x).1),
    hnumbered (fun index x => (row_cellRow index x).1), definitions, List.map_append,
    List.append_nil]

/-- The rows that every file has refer to what has no number. -/
theorem exists_fixed_of_mem_symbols {row symbol : String}
    (hrow : row ∈ opening ++ closing ++ formats ++ storage) (hsymbol : symbol ∈ Row.symbols row) :
    ∃ reference ∈ Reference.fixed, reference.text = symbol := by
  have hfixed : ∀ row ∈ opening ++ closing ++ formats ++ storage,
      ∀ symbol ∈ Row.symbols row, symbol ∈ Reference.fixed.map Reference.text := by
    decide
  exact List.mem_map.1 (hfixed row hrow symbol hsymbol)

/-- What a file uses has no number, or is used by a line of the text. -/
theorem exists_reference_of_uses {listing : Listing} {row symbol : String}
    (hrow : row ∈ listing.lines) (hsymbol : symbol ∈ Row.uses row) :
    ∃ reference : Reference, reference.text = symbol ∧
      (reference ∈ Reference.fixed ∨ ∃ line ∈ listing.text, reference ∈ line.references) := by
  rcases mem_lines_iff.1 hrow with hrow | hrow
  · obtain ⟨reference, hmem, hreference⟩ :=
      exists_fixed_of_mem_symbols hrow (Row.mem_symbols_iff.2 (.inr hsymbol))
    exact ⟨reference, hreference, .inl hmem⟩
  · rcases List.mem_append.1 hrow with hrow | hrow
    · rcases List.mem_append.1 hrow with hrow | hrow
      · obtain ⟨line, hline, rfl⟩ := List.mem_map.1 hrow
        rw [line.row_text.2] at hsymbol
        obtain ⟨reference, hmem, hreference⟩ := List.mem_map.1 hsymbol
        exact ⟨reference, hreference, .inr ⟨line, hline, hmem⟩⟩
      · obtain ⟨index, x, _, rfl⟩ := exists_of_mem_data hrow
        rw [(row_nameRow index x).2] at hsymbol
        cases hsymbol
    · obtain ⟨index, x, _, rfl⟩ := exists_of_mem_cells hrow
      rw [(row_cellRow index x).2] at hsymbol
      cases hsymbol

end Listing

end Rows

end Assembly

end StraightForth
