import StraightForth.Proofs.Assembling
import StraightForth.Proofs.Printing

/-!
# Strings in a file

A name is laid down with all its bytes and a zero byte behind them, and is printed up to the first
zero byte. An identifier may have the character zero, so it can be cut short. The main statement
reads off the rows of a file what is printed for each name, and tells the names that are printed
as they are and the names that are printed alike.
-/

namespace StraightForth

namespace Text

/-- A text up to its first character zero. -/
def beforeZero (text : String) : String :=
  String.ofList (text.toList.takeWhile (· ≠ '\x00'))

theorem beforeZero_eq_self_iff (text : String) : beforeZero text = text ↔ '\x00' ∉ text.toList := by
  rw [← String.toList_inj, beforeZero, String.toList_ofList, List.takeWhile_eq_self_iff]
  constructor
  · intro hall hzero
    exact of_decide_eq_true (hall '\x00' hzero) rfl
  · intro hzero c hc
    exact decide_eq_true fun heq => hzero (heq ▸ hc)

theorem utf8_inj {first second : String} : utf8 first = utf8 second ↔ first = second := by
  constructor
  · intro h
    apply String.toByteArray_inj.1
    exact ByteArray.ext (Array.toList_inj.1 h)
  · intro h
    rw [h]

end Text

section Reading

/-- The bytes that a row lays down. -/
def Row.bytes? (row : String) : Option (List UInt8) :=
  ((statement? row).bind Assembly.Statement.string?).map Prod.snd

/-- What is printed for the address of a symbol, given the rows of a file. -/
def Row.printed? (rows : List String) (symbol : String) : Option (List UInt8) :=
  ((rows.find? fun row => defined? row = some symbol).bind bytes?).map Assembly.upToZero

/-- What is defined once is found. -/
theorem Row.find?_defined {rows : List String} (h : (rows.filterMap defined?).Nodup)
    {row symbol : String} (hrow : row ∈ rows) (hsymbol : defined? row = some symbol) :
    rows.find? (fun row => defined? row = some symbol) = some row := by
  induction rows with
  | nil => cases hrow
  | cons first rest ih =>
      by_cases hfirst : defined? first = some symbol
      · rw [List.filterMap_cons_some hfirst, List.nodup_cons] at h
        rcases List.mem_cons.1 hrow with rfl | hrest
        · exact List.find?_cons_of_pos (decide_eq_true hfirst)
        · exact absurd (List.mem_filterMap.2 ⟨row, hrest, hsymbol⟩) h.1
      · have hlater : row ∈ rest := by
          rcases List.mem_cons.1 hrow with rfl | hrest
          · exact absurd hsymbol hfirst
          · exact hrest
        rw [List.find?_cons_of_neg (by simpa using hfirst)]
        apply ih _ hlater
        exact h.sublist ((List.sublist_cons_self first rest).filterMap defined?)

end Reading

namespace Assembly

section Names

/-- What prints a row of characters stops at the first character zero. -/
theorem upToZero_flatMap (text : List Char) :
    upToZero (text.flatMap String.utf8EncodeChar ++ [0]) =
      (text.takeWhile (· ≠ '\x00')).flatMap String.utf8EncodeChar := by
  induction text with
  | nil => rfl
  | cons c rest ih =>
      by_cases hc : c = '\x00'
      · subst hc
        rfl
      · have hkeep (byte : UInt8) (hbyte : byte ∈ String.utf8EncodeChar c) :
            decide (byte ≠ 0) = true :=
          decide_eq_true fun heq => Text.zero_notMem_utf8EncodeChar hc (heq ▸ hbyte)
        rw [List.takeWhile_cons_of_pos (by simpa using hc), List.flatMap_cons, List.flatMap_cons,
          List.append_assoc, upToZero, List.takeWhile_append_of_pos hkeep]
        exact congrArg _ ih

theorem upToZero_utf8 (text : String) :
    upToZero (Text.utf8 text ++ [0]) = Text.utf8 (Text.beforeZero text) := by
  rw [Text.utf8_eq_flatMap, Text.utf8_eq_flatMap, Text.beforeZero, String.toList_ofList,
    upToZero_flatMap]

/-- A name is laid down with all its bytes. -/
theorem Listing.bytes?_nameRow (index : Nat) {x : String} (h : x ≠ "") :
    Row.bytes? (nameRow index x) = some (Text.utf8 x ++ [0]) := by
  rw [Row.bytes?, statement?_nameRow index h]
  rfl

/-- The rows of a listing have a row for each of its names. -/
theorem Listing.nameRow_mem_lines {listing : Listing} {index : Nat} {x : String}
    (h : listing.names[index]? = some x) : nameRow index x ∈ listing.lines := by
  have hdata : nameRow index x ∈ listing.data :=
    List.mem_map.2 ⟨(x, index), List.mem_zipIdx_iff_getElem?.2 h, rfl⟩
  rw [mem_lines_iff]
  simp only [List.mem_append]
  exact .inr (.inl (.inr hdata))

/-- Only rows of names define their symbols. -/
theorem Listing.lt_of_defined_name {listing : Listing} {row : String} {index : Nat}
    (hrow : row ∈ listing.lines)
    (h : Row.defined? row = some (Reference.symbol (.name index)).text) :
    index < listing.names.length := by
  have hmem := List.mem_filterMap.2 ⟨row, hrow, h⟩
  rw [listing.filterMap_defined?_lines,
    List.mem_map_of_injective fun _ _ => Reference.text_injective] at hmem
  have hmark : Reference.symbol (.name index) ∉ listing.text.filterMap TextLine.defined? := by
    intro hdefined
    obtain ⟨line, _, hline⟩ := List.mem_filterMap.1 hdefined
    cases line <;> cases hline
  simpa [definitions, hmark] using hmem

variable {recover : Bool} {source : String} {listing : Listing}

/-- What is printed for a name is found in its row. -/
theorem printed?_name (h : compile recover source = .ok listing) (index : Nat) :
    Row.printed? (Text.rows listing.render) (Symbol.name index).text =
      listing.names[index]?.map fun x => Text.utf8 (Text.beforeZero x) := by
  change Row.printed? _ (Reference.symbol (.name index)).text = _
  rw [rows_render h, Row.printed?]
  cases hx : listing.names[index]? with
  | none =>
      have hlength := List.getElem?_eq_none_iff.1 hx
      have hnone : listing.lines.find?
          (fun row => Row.defined? row = some (Reference.symbol (.name index)).text) = none := by
        rw [List.find?_eq_none]
        intro row hrow hdefined
        have hlt := Listing.lt_of_defined_name hrow (of_decide_eq_true hdefined)
        omega
      rw [hnone]
      rfl
  | some x =>
      have hnodup : (listing.lines.filterMap Row.defined?).Nodup := by
        rw [← rows_render h]
        exact (link_rows h).distinct
      have hnonempty := ((isIdentifier_of_compile h).1 x (List.mem_of_getElem? hx)).nonempty
      rw [Row.find?_defined hnodup (Listing.nameRow_mem_lines hx) (Listing.row_nameRow index x).1,
        Option.bind_some, Listing.bytes?_nameRow index hnonempty, Option.map_some, upToZero_utf8]
      rfl

/-- The names of a source are laid down in the order of their first push, and each of them is
printed up to its first character zero. So it is printed like the operand exactly if it has no
such character, and two names are printed alike exactly if they do not differ before it. -/
theorem names_printed_up_to_zero (h : compile recover source = .ok listing) :
    let names := ((Turn.ofSource source).filterMap Turn.pushed?).eraseDups
    let printed (index : Nat) :=
      Row.printed? (Text.rows listing.render) ("name_" ++ index.repr)
    (∀ index, printed index = names[index]?.map fun x => Text.utf8 (Text.beforeZero x)) ∧
    (∀ index x, names[index]? = some x →
      (printed index = some (Text.utf8 (Operand.name x).text) ↔ '\x00' ∉ x.toList)) ∧
    ∀ first second x y, names[first]? = some x → names[second]? = some y →
      (printed first = printed second ↔ Text.beforeZero x = Text.beforeZero y) := by
  intro names printed
  have hnames : listing.names = names :=
    (compile_eq_page h).2.1.trans (Shape.names_after (Turn.ofSource source))
  have hprinted : ∀ index, printed index =
      names[index]?.map fun x => Text.utf8 (Text.beforeZero x) := by
    intro index
    rw [← hnames]
    exact printed?_name h index
  refine ⟨hprinted, ?_, ?_⟩
  · intro index x hx
    rw [hprinted, hx, Option.map_some, Option.some.injEq, Text.utf8_inj]
    exact Text.beforeZero_eq_self_iff x
  · intro first second x y hx hy
    rw [hprinted, hprinted, hx, hy, Option.map_some, Option.map_some, Option.some.injEq,
      Text.utf8_inj]

/-- A compilation of one name with the character zero and one without. -/
theorem names_printed_up_to_zero_of_two :
    ∃ listing, compile false "a\x00b . a ." = .ok listing ∧
      Row.printed? (Text.rows listing.render) "name_0" =
        Row.printed? (Text.rows listing.render) "name_1" := by
  have hnames : ((Turn.ofSource "a\x00b . a .").filterMap Turn.pushed?).eraseDups =
      ["a\x00b", "a"] := by
    decide +kernel
  have hcompiles : (compile false "a\x00b . a .").isOk = true := by decide +kernel
  cases hcompile : compile false "a\x00b . a ." with
  | error fatal =>
      rw [hcompile] at hcompiles
      cases hcompiles
  | ok listing =>
      obtain ⟨_, _, halike⟩ := names_printed_up_to_zero hcompile
      refine ⟨listing, rfl, (halike 0 1 "a\x00b" "a" ?_ ?_).2 (by decide)⟩
      · rw [hnames]
        rfl
      · rw [hnames]
        rfl

/-- A name is cut short, and is then not told from another one. -/
theorem name_cut_short :
    ∃ listing, compile false "a\x00b . a ." = .ok listing ∧
      listing.names = ["a\x00b", "a"] ∧
      Row.printed? (Text.rows listing.render) "name_0" = some (Text.utf8 "a") ∧
      Row.printed? (Text.rows listing.render) "name_1" = some (Text.utf8 "a") ∧
      Text.utf8 (Operand.name "a\x00b").text ≠ Text.utf8 "a" := by
  have hnames : (compile false "a\x00b . a .").toOption.map Listing.names =
      some ["a\x00b", "a"] := by
    decide +kernel
  cases hcompile : compile false "a\x00b . a ." with
  | error fatal =>
      rw [hcompile] at hnames
      cases hnames
  | ok listing =>
      rw [hcompile] at hnames
      replace hnames : listing.names = ["a\x00b", "a"] := Option.some.inj hnames
      have hcut := printed?_name hcompile 0
      have hwhole := printed?_name hcompile 1
      rw [hnames] at hcut hwhole
      refine ⟨listing, rfl, hnames, hcut, hwhole, ?_⟩
      rw [Ne, Text.utf8_inj]
      decide

end Names

end Assembly

end StraightForth
