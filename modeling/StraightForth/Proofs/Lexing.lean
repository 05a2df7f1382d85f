import StraightForth.Proofs.References

/-!
# Reading instructions

An assembler cuts a row into words, strings and marks. It knows an instruction by its mnemonic and
by the kinds of its operands. Offsets from the stack pointer and amounts added to it are counted in
bytes there, and a number of bytes makes cells only if it is divisible by four. The main statement
is that every instruction is read back from its text.

## Implementation notes

The reader has tables of its own for mnemonics, registers and symbols, and refuses whatever stands
in none of them. So what it reads does not depend on how instructions are written elsewhere.
-/

namespace StraightForth

namespace Text

/-- What a row is made of. -/
inductive Lexeme
  | word (text : String)
  /-- A string without its quotes. -/
  | quoted (text : String)
  | mark (c : Char)
deriving DecidableEq

/-- What the reader of a row is in the middle of. -/
inductive Pending
  /-- A word, of which nothing may be read yet. -/
  | word (read : List Char)
  | quoted (read : List Char)

/-- What is left to say at the end of a word, or of a row. A string without an end is none. -/
def Pending.finish : Pending → List Lexeme
  | word [] => []
  | word read => [.word (String.ofList read)]
  | quoted _ => [.mark '"']

/-- The lexemes of the rest of a row. -/
def lexemesFrom : Pending → List Char → List Lexeme
  | pending, [] => pending.finish
  | .quoted read, c :: rest =>
      if c = '"' then .quoted (String.ofList read) :: lexemesFrom (.word []) rest
      else lexemesFrom (.quoted (read ++ [c])) rest
  | .word read, c :: rest =>
      if isWordChar c then lexemesFrom (.word (read ++ [c])) rest
      else (Pending.word read).finish ++
        if c = ';' then []
        else if c = '"' then lexemesFrom (.quoted []) rest
        else if c.isWhitespace then lexemesFrom (.word []) rest
        else .mark c :: lexemesFrom (.word []) rest

/-- The lexemes of a row, up to its comment. -/
def lexemes (row : List Char) : List Lexeme := lexemesFrom (.word []) row

/-- Neither a string nor a comment starts in a code. -/
def Bare (code : List Char) : Prop := ';' ∉ code ∧ '"' ∉ code

instance (code : List Char) : Decidable (Bare code) :=
  inferInstanceAs (Decidable (_ ∧ _))

theorem Lacks.bare {text : String} (h : Lacks delimiters text) : Bare text.toList :=
  ⟨h ';' (by decide), h '"' (by decide)⟩

section Laws

variable {first : List Char} {c : Char}

theorem lexemesFrom_append (h : Bare first) (hc : isWordChar c = false) (read rest : List Char) :
    lexemesFrom (.word read) (first ++ c :: rest) =
      lexemesFrom (.word read) first ++ lexemesFrom (.word []) (c :: rest) := by
  induction first generalizing read with
  | nil => simp [lexemesFrom, hc, Pending.finish]
  | cons d first ih =>
      obtain ⟨hsemicolon, hquote⟩ := h
      obtain ⟨hd, hsemicolon⟩ := not_or.1 (List.mem_cons.not.1 hsemicolon)
      obtain ⟨hd', hquote⟩ := not_or.1 (List.mem_cons.not.1 hquote)
      have hlater := ih ⟨hsemicolon, hquote⟩
      rw [List.cons_append, lexemesFrom, lexemesFrom, if_neg (Ne.symm hd), if_neg (Ne.symm hd'),
        if_neg (Ne.symm hd), if_neg (Ne.symm hd')]
      split
      · exact hlater _
      · rw [List.append_assoc]
        split
        · rw [hlater]
        · rw [hlater, List.cons_append]

theorem lexemes_blank (h : Bare first) (rest : List Char) :
    lexemes (first ++ ' ' :: rest) = lexemes first ++ lexemes rest :=
  lexemesFrom_append h (by decide) [] rest

/-- The marks that stand between the parts of operands. -/
def isMark (c : Char) : Bool := c ∈ [',', '[', ']', '+', '-', ':']

theorem lexemes_mark (h : Bare first) (hc : isMark c = true) (rest : List Char) :
    lexemes (first ++ c :: rest) = lexemes first ++ .mark c :: lexemes rest := by
  have hmark : isWordChar c = false ∧ c ≠ ';' ∧ c ≠ '"' ∧ c.isWhitespace = false := by
    simp only [isMark, decide_eq_true_eq, List.mem_cons, List.not_mem_nil, or_false] at hc
    rcases hc with rfl | rfl | rfl | rfl | rfl | rfl <;> decide
  obtain ⟨hword, hsemicolon, hquote, hblank⟩ := hmark
  rw [lexemes, lexemesFrom_append h hword]
  congr 1
  rw [lexemesFrom, if_neg (by rw [hword]; exact Bool.false_ne_true), if_neg hsemicolon,
    if_neg hquote, if_neg (by rw [hblank]; exact Bool.false_ne_true)]
  rfl

theorem lexemes_comment (h : Bare first) (rest : List Char) :
    lexemes (first ++ ';' :: rest) = lexemes first := by
  rw [lexemes, lexemesFrom_append h (by decide)]
  exact List.append_nil _

theorem lexemesFrom_word {word : List Char} (h : word.all isWordChar = true) (read : List Char) :
    lexemesFrom (.word read) word = (Pending.word (read ++ word)).finish := by
  induction word generalizing read with
  | nil => rw [lexemesFrom, List.append_nil]
  | cons c rest ih =>
      obtain ⟨hc, hrest⟩ := Bool.and_eq_true_iff.1 h
      rw [lexemesFrom, if_pos hc, ih hrest, List.append_assoc, List.singleton_append]

/-- Word characters make a single word. -/
theorem lexemes_word {word : String} (hne : word ≠ "") (h : word.toList.all isWordChar = true) :
    lexemes word.toList = [.word word] := by
  rw [lexemes, lexemesFrom_word h, List.nil_append]
  cases hlist : word.toList with
  | nil => exact (hne (String.toList_eq_nil_iff.1 hlist)).elim
  | cons c rest =>
      rw [Pending.finish, ← hlist, String.ofList_toList]
      exact List.cons_ne_nil c rest

/-- No word holds a semicolon or a quote. -/
theorem bare_of_all_isWordChar {word : List Char} (h : word.all isWordChar = true) :
    Bare word := by
  rw [List.all_eq_true] at h
  constructor
  · intro hmem
    exact absurd (h ';' hmem) (by decide)
  · intro hmem
    exact absurd (h '"' hmem) (by decide)

theorem all_isWordChar_natural (n : Nat) : n.repr.toList.all isWordChar = true := by
  have hdigits := Decimal.all_isDigit_toDigits n
  rw [Nat.toList_repr]
  rw [List.all_eq_true] at hdigits ⊢
  exact fun c hc => isWordChar_of_isDigit (hdigits c hc)

theorem lexemes_natural (n : Nat) : lexemes n.repr.toList = [.word n.repr] := by
  apply lexemes_word _ (all_isWordChar_natural n)
  intro hempty
  have hdigits := congrArg String.toList hempty
  rw [Nat.toList_repr] at hdigits
  exact Nat.toDigits_ne_nil hdigits

end Laws

end Text

namespace Assembly

open Text (Lexeme lexemes Bare)

section Reader

/-- The mnemonics that are known to the reader. -/
inductive Mnemonic
  | push
  | pop
  | add
  | sub
  | imul
  | neg
  | mov
  | xor
  | cmp
  | je
  | cdq
  | idiv
  | call
  | ret
deriving DecidableEq

namespace Mnemonic

/-- How a mnemonic is written. -/
def text : Mnemonic → String
  | push => "push"
  | pop => "pop"
  | add => "add"
  | sub => "sub"
  | imul => "imul"
  | neg => "neg"
  | mov => "mov"
  | xor => "xor"
  | cmp => "cmp"
  | je => "je"
  | cdq => "cdq"
  | idiv => "idiv"
  | call => "call"
  | ret => "ret"

def all : List Mnemonic :=
  [push, pop, add, sub, imul, neg, mov, xor, cmp, je, cdq, idiv, call, ret]

def ofText? (word : String) : Option Mnemonic := all.find? fun mnemonic => mnemonic.text = word

end Mnemonic

def Register.ofText? : String → Option Register
  | "eax" => some eax
  | "ebx" => some ebx
  | "edx" => some edx
  | "esp" => some esp
  | _ => none

/-- An operand of an instruction. -/
inductive Argument
  | register (register : Register)
  | number (value : Int)
  | reference (reference : Reference)
  /-- A place in memory, and whether it is called a double word. -/
  | memory (place : Memory) (sized : Bool)
deriving DecidableEq

/-- The number of cells that some bytes make, if they make any number of them. -/
def cellsOfBytes? : Int → Option Nat
  | .ofNat bytes => if bytes % 4 = 0 then some (bytes / 4) else none
  | .negSucc _ => none

/-- A number that fits into a cell. -/
def int32? (n : Int) : Option Int32 :=
  if Int32.minValue.toInt ≤ n ∧ n ≤ Int32.maxValue.toInt then some (Int32.ofInt n) else none

/-- A place in memory, behind its opening bracket. -/
def Memory.ofLexemes? : List Lexeme → Option Memory
  | [.word base, .mark ']'] =>
      if base = "esp" then some .top
      else match Reference.ofText? base.toList with
        | some (.symbol s) => some (.symbol s)
        | _ => none
  | [.word "esp", .mark '+', .word offset, .mark ']'] =>
      (Decimal.natural? offset.toList).bind fun bytes => (cellsOfBytes? bytes).map .below
  | _ => none

/-- A symbol, a number or a register. -/
def Argument.ofWord? (word : String) : Option Argument :=
  if Text.isSymbol word.toList then (Reference.ofText? word.toList).map .reference
  else match Decimal.natural? word.toList with
    | some n => some (.number n)
    | none => (Register.ofText? word).map .register

/-- An operand that is called a double word. -/
def Argument.sized? : Argument → Option Argument
  | .number n => some (.number n)
  | .memory place _ => some (.memory place true)
  | .register _ | .reference _ => none

def Argument.ofLexemes? : List Lexeme → Option Argument
  | [.word word] => ofWord? word
  | [.mark '-', .word digits] => (Decimal.natural? digits.toList).map fun n => .number (-n)
  | .mark '[' :: rest => (Memory.ofLexemes? rest).map (.memory · false)
  | .word "dword" :: rest => (ofLexemes? rest).bind sized?
  | _ => none

/-- The instruction with a mnemonic and some operands. A place in memory needs a size if nothing
else tells it. -/
def Mnemonic.instruction? : Mnemonic → List Argument → Option Instruction
  | push, [.number n] => (int32? n).map .pushInt
  | push, [.reference (.symbol s)] => some (.pushAddress s)
  | push, [.register source] => some (.pushRegister source)
  | push, [.memory source true] => some (.pushMemory source)
  | pop, [.register target] => some (.pop target)
  | add, [.memory target _, .register source] => some (.addTo target source)
  | add, [.register .esp, .number bytes] => (cellsOfBytes? bytes).map .release
  | sub, [.memory target _, .register source] => some (.subtractFrom target source)
  | imul, [.register target, .memory source _] => some (.multiplyBy target source)
  | neg, [.memory target true] => some (.negate target)
  | mov, [.register target, .memory source _] => some (.load target source)
  | mov, [.memory target _, .register source] => some (.save target source)
  | xor, [.register target, .register source] =>
      if target = source then some (.zero target) else none
  | cmp, [.register left, .number right] => (int32? right).map (.compare left)
  | je, [.reference (.mark label)] => some (.skipIfEqual label)
  | cdq, [] => some .extendSign
  | idiv, [.register divisor] => some (.divide divisor)
  | call, [.reference .printf] => some .callPrintf
  | ret, [] => some .ret
  | _, _ => none

/-- What stands between commas. -/
def operands (lexemes : List Lexeme) : List (List Lexeme) :=
  if lexemes = [] then [] else lexemes.splitOn (.mark ',')

/-- The instruction that is written in a row. -/
def Instruction.ofLexemes? : List Lexeme → Option Instruction
  | .word mnemonic :: rest => do
      let mnemonic ← Mnemonic.ofText? mnemonic
      mnemonic.instruction? (← (operands rest).mapM Argument.ofLexemes?)
  | _ => none

end Reader

section Operands

theorem cellsOfBytes?_four_mul (cells : Nat) :
    cellsOfBytes? ((4 * cells : Nat) : Int) = some cells := by
  change (if 4 * cells % 4 = 0 then some (4 * cells / 4) else none) = _
  rw [if_pos (Nat.mul_mod_right 4 cells), Nat.mul_div_cancel_left cells (by decide)]

theorem int32?_toInt (n : Int32) : int32? n.toInt = some n := by
  rw [int32?, if_pos ⟨Int32.minValue_le_toInt n, Int32.toInt_le n⟩, Int32.ofInt_toInt]

/-- A text is read as an operand, and no comma, quote or semicolon in it gets in the way of other
operands. -/
structure Argument.Spells (text : String) (argument : Argument) : Prop where
  bare : Bare text.toList
  comma : .mark ',' ∉ lexemes text.toList
  reads : ofLexemes? (lexemes text.toList) = some argument

theorem Register.spells (register : Register) :
    Argument.Spells register.text (.register register) := by
  constructor <;> cases register <;> decide +kernel

/-- A natural number in decimal, with or without a sign. -/
theorem Argument.spells_natural (n : Nat) : Spells n.repr (.number n) := by
  have hlexemes := Text.lexemes_natural n
  refine ⟨(Text.lacks_natural n).bare, ?_, ?_⟩
  · rw [hlexemes]
    simp
  · have hsymbol : ¬ Text.isSymbol n.repr.toList = true := by
      rw [Nat.toList_repr, Text.isSymbol_toDigits]
      exact Bool.false_ne_true
    rw [hlexemes, ofLexemes?, ofWord?, if_neg hsymbol, Nat.toList_repr, Decimal.natural?_toDigits]

theorem Argument.spells_integer (n : Int) : Spells n.repr (.number n) := by
  cases n with
  | ofNat m => exact spells_natural m
  | negSucc m =>
      have hlist : (Int.negSucc m).repr.toList = [] ++ '-' :: (m + 1).repr.toList := by
        simp [Int.repr]
      have hlexemes : lexemes (Int.negSucc m).repr.toList = [.mark '-', .word (m + 1).repr] := by
        rw [hlist, Text.lexemes_mark (by decide) (by decide), Text.lexemes_natural]
        rfl
      refine ⟨(Text.lacks_decimal _).bare, ?_, ?_⟩
      · simp [hlexemes]
      · rw [hlexemes, ofLexemes?, Nat.toList_repr, Decimal.natural?_toDigits]
        rfl

/-- A reference is a single word. -/
theorem Reference.all_isWordChar_text (reference : Reference) :
    reference.text.toList.all Text.isWordChar = true := by
  have hnumbered (stem : String) (hstem : stem.toList.all Text.isWordChar = true) (n : Nat) :
      (stem ++ n.repr).toList.all Text.isWordChar = true := by
    rw [String.toList_append, List.all_append, hstem, Text.all_isWordChar_natural]
    rfl
  cases reference with
  | main => decide
  | printf => decide
  | mark index => exact hnumbered "mod_" (by decide) index
  | symbol symbol =>
      cases symbol with
      | name index => exact hnumbered "name_" (by decide) index
      | cell index => exact hnumbered "var_" (by decide) index
      | format format => cases format <;> decide
      | stackStart => decide

theorem Reference.bare_text (reference : Reference) : Bare reference.text.toList :=
  Text.bare_of_all_isWordChar reference.all_isWordChar_text

theorem Reference.lexemes_text (reference : Reference) :
    lexemes reference.text.toList = [.word reference.text] := by
  apply Text.lexemes_word _ reference.all_isWordChar_text
  intro hempty
  have hsymbol := reference.isSymbol_text.1
  rw [hempty] at hsymbol
  cases hsymbol

theorem Reference.spells (reference : Reference) :
    Argument.Spells reference.text (.reference reference) := by
  have hlexemes := reference.lexemes_text
  refine ⟨reference.bare_text, ?_, ?_⟩
  · rw [hlexemes]
    simp
  · rw [hlexemes, Argument.ofLexemes?, Argument.ofWord?, if_pos reference.isSymbol_text.2,
      reference.ofText?_text]
    rfl

/-- The word for the stack pointer is no symbol. -/
theorem Reference.text_ne_esp (reference : Reference) : reference.text ≠ "esp" := by
  intro hsame
  have hsymbol := reference.isSymbol_text.2
  rw [hsame] at hsymbol
  revert hsymbol
  decide

theorem Memory.spells (place : Memory) : Argument.Spells place.text (.memory place false) := by
  have hbare := (place.lacks_text).bare
  cases place with
  | top => exact ⟨hbare, by decide +kernel, by decide +kernel⟩
  | below cells =>
      have htext : (Memory.below cells).text.toList =
          "[esp".toList ++ '+' :: ((4 * cells).repr.toList ++ ']' :: []) := by
        simp [Memory.text]
      have hbase : lexemes "[esp".toList = [.mark '[', .word "esp"] := by decide +kernel
      have hlexemes : lexemes (Memory.below cells).text.toList =
          [.mark '[', .word "esp", .mark '+', .word (4 * cells).repr, .mark ']'] := by
        rw [htext, Text.lexemes_mark (by decide) (by decide),
          Text.lexemes_mark (Text.lacks_natural _).bare (by decide), Text.lexemes_natural,
          hbase]
        rfl
      refine ⟨hbare, ?_, ?_⟩
      · rw [hlexemes]
        simp
      · rw [hlexemes, Argument.ofLexemes?, Memory.ofLexemes?, Nat.toList_repr,
          Decimal.natural?_toDigits, Option.bind_some, cellsOfBytes?_four_mul]
        rfl
  | symbol symbol =>
      have htext : (Memory.symbol symbol).text.toList =
          [] ++ '[' :: ((Reference.symbol symbol).text.toList ++ ']' :: []) := by
        simp [Memory.text, Reference.text]
      have hlexemes : lexemes (Memory.symbol symbol).text.toList =
          [.mark '[', .word (Reference.symbol symbol).text, .mark ']'] := by
        rw [htext, Text.lexemes_mark (by decide) (by decide),
          Text.lexemes_mark (Reference.symbol symbol).bare_text (by decide),
          Reference.lexemes_text]
        rfl
      refine ⟨hbare, ?_, ?_⟩
      · rw [hlexemes]
        simp
      · rw [hlexemes, Argument.ofLexemes?, Memory.ofLexemes?, if_neg (Reference.text_ne_esp _),
          Reference.ofText?_text]
        rfl

/-- What is called a double word may be a number or a place in memory. -/
theorem Argument.Spells.dword {text : String} {argument sized : Argument}
    (h : Spells text argument) (hsized : argument.sized? = some sized) :
    Spells ("dword " ++ text) sized := by
  have htext : ("dword " ++ text).toList = "dword".toList ++ ' ' :: text.toList := by simp
  have hlexemes : lexemes ("dword " ++ text).toList = .word "dword" :: lexemes text.toList := by
    rw [htext, Text.lexemes_blank (by decide)]
    rfl
  have hnext : ofLexemes? (.word "dword" :: lexemes text.toList) =
      (ofLexemes? (lexemes text.toList)).bind sized? := by
    have hreads := h.reads
    generalize lexemes text.toList = rest at hreads ⊢
    cases rest with
    | nil => cases hreads
    | cons lexeme rest => rfl
  refine ⟨?_, ?_, ?_⟩
  · rw [htext]
    obtain ⟨hsemicolon, hquote⟩ := h.bare
    constructor <;> simp [hsemicolon, hquote]
  · rw [hlexemes]
    simpa using h.comma
  · rw [hlexemes, hnext, h.reads]
    exact hsized

end Operands

section Instructions

theorem Argument.Spells.forall_ne_comma {text : String} {argument : Argument}
    (h : Spells text argument) :
    ∀ lexeme ∈ lexemes text.toList, (lexeme == Lexeme.mark ',') = false :=
  fun _ hmem => beq_false_of_ne fun hcomma => h.comma (hcomma ▸ hmem)

/-- No operand is empty, and none is cut in two. -/
theorem Argument.Spells.operands {text : String} {argument : Argument} (h : Spells text argument) :
    operands (lexemes text.toList) = [lexemes text.toList] := by
  have hne : lexemes text.toList ≠ [] := by
    intro hnil
    have hreads := h.reads
    rw [hnil] at hreads
    cases hreads
  rw [Assembly.operands, if_neg hne]
  exact List.splitOnP_eq_singleton h.forall_ne_comma

theorem Argument.Spells.operands_two {first second : String} {left right : Argument}
    (hleft : Spells first left) (hright : Spells second right) :
    Assembly.operands (lexemes first.toList ++ .mark ',' :: lexemes second.toList) =
      [lexemes first.toList, lexemes second.toList] := by
  rw [Assembly.operands, if_neg (by simp), List.splitOn,
    List.splitOnP_append_cons_of_forall_mem hleft.forall_ne_comma _ (beq_self_eq_true _),
    List.splitOnP_eq_singleton hright.forall_ne_comma]

/-- A mnemonic is a single word. -/
theorem Mnemonic.reads (mnemonic : Mnemonic) : Bare mnemonic.text.toList ∧
    lexemes mnemonic.text.toList = [.word mnemonic.text] ∧
      ofText? mnemonic.text = some mnemonic := by
  cases mnemonic <;> decide +kernel

/-- An instruction with one operand. -/
theorem Instruction.ofLexemes?_one (mnemonic : Mnemonic) {text operand : String}
    {argument : Argument} (h : Argument.Spells operand argument)
    (htext : text.toList = mnemonic.text.toList ++ ' ' :: operand.toList) :
    ofLexemes? (lexemes text.toList) = mnemonic.instruction? [argument] := by
  obtain ⟨hbare, hword, hmnemonic⟩ := mnemonic.reads
  rw [htext, Text.lexemes_blank hbare, hword, List.singleton_append, ofLexemes?, hmnemonic,
    h.operands, List.mapM_cons, h.reads]
  rfl

/-- An instruction with two operands. -/
theorem Instruction.ofLexemes?_two (mnemonic : Mnemonic) {text left right : String}
    {first second : Argument} (hfirst : Argument.Spells left first)
    (hsecond : Argument.Spells right second)
    (htext : text.toList =
      mnemonic.text.toList ++ ' ' :: (left.toList ++ ',' :: ' ' :: right.toList)) :
    ofLexemes? (lexemes text.toList) = mnemonic.instruction? [first, second] := by
  obtain ⟨hbare, hword, hmnemonic⟩ := mnemonic.reads
  have hblank : lexemes (' ' :: right.toList) = lexemes right.toList :=
    Text.lexemes_blank (by decide : Bare []) right.toList
  rw [htext, Text.lexemes_blank hbare, hword, List.singleton_append,
    Text.lexemes_mark hfirst.bare (by decide), hblank, ofLexemes?, hmnemonic,
    hfirst.operands_two hsecond, List.mapM_cons, List.mapM_cons, hfirst.reads, hsecond.reads]
  rfl

/-- Every instruction is read back from its text. -/
theorem Instruction.ofLexemes?_text (instruction : Instruction) :
    ofLexemes? (lexemes instruction.text.toList) = some instruction := by
  cases instruction with
  | pushInt value =>
      have hvalue := (Argument.spells_integer value.toInt).dword rfl
      refine (ofLexemes?_one .push hvalue (by simp [text, Mnemonic.text])).trans ?_
      exact congrArg (Option.map pushInt) (int32?_toInt value)
  | pushAddress symbol =>
      exact ofLexemes?_one .push (Reference.symbol symbol).spells
        (by simp [text, Mnemonic.text, Reference.text])
  | pushRegister source =>
      exact ofLexemes?_one .push source.spells (by simp [text, Mnemonic.text])
  | pushMemory source =>
      exact ofLexemes?_one .push (source.spells.dword rfl) (by simp [text, Mnemonic.text])
  | pop target =>
      exact ofLexemes?_one .pop target.spells (by simp [text, Mnemonic.text])
  | addTo target source =>
      exact ofLexemes?_two .add target.spells source.spells (by simp [text, Mnemonic.text])
  | subtractFrom target source =>
      exact ofLexemes?_two .sub target.spells source.spells (by simp [text, Mnemonic.text])
  | multiplyBy target source =>
      exact ofLexemes?_two .imul target.spells source.spells (by simp [text, Mnemonic.text])
  | negate target =>
      exact ofLexemes?_one .neg (target.spells.dword rfl) (by simp [text, Mnemonic.text])
  | load target source =>
      exact ofLexemes?_two .mov target.spells source.spells (by simp [text, Mnemonic.text])
  | save target source =>
      exact ofLexemes?_two .mov target.spells source.spells (by simp [text, Mnemonic.text])
  | release cells =>
      have hbytes := Argument.spells_natural (4 * cells)
      refine (ofLexemes?_two .add Register.esp.spells hbytes
        (by simp [text, Mnemonic.text, Register.text])).trans ?_
      exact congrArg (Option.map release) (cellsOfBytes?_four_mul cells)
  | zero target =>
      refine (ofLexemes?_two .xor target.spells target.spells
        (by simp [text, Mnemonic.text])).trans ?_
      exact if_pos rfl
  | compare left right =>
      have hright := Argument.spells_integer right.toInt
      refine (ofLexemes?_two .cmp left.spells hright (by simp [text, Mnemonic.text])).trans ?_
      exact congrArg (Option.map (compare left)) (int32?_toInt right)
  | skipIfEqual label =>
      exact ofLexemes?_one .je (Reference.mark label).spells
        (by simp [text, Mnemonic.text, Reference.text])
  | extendSign => decide +kernel
  | divide divisor =>
      exact ofLexemes?_one .idiv divisor.spells (by simp [text, Mnemonic.text])
  | callPrintf => decide +kernel
  | ret => decide +kernel

/-- Eight bytes are two cells, and six bytes are no number of cells. -/
example :
    Instruction.ofLexemes? (lexemes "  mov eax,[esp+8] ; third".toList) =
        some (.load .eax (.below 2)) ∧
      Instruction.ofLexemes? (lexemes "  mov eax,[esp+6]".toList) = none := by
  decide +kernel

end Instructions

end Assembly

end StraightForth
