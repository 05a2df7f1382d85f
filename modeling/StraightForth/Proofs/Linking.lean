import StraightForth.Proofs.References
import Mathlib.Data.List.Nodup

/-!
# Listings link

Every symbol that a listing uses is defined in it, and none is defined twice. The numbers in the
symbols are those of the names and variables in their order in the source, wherever they stand: in
the data, in the cells and in the code of every turn. The main statement reads all of this off the
rows of the file.
-/

namespace StraightForth

open Assembly

/-- No symbol is defined twice in the rows, and each that is used is defined. -/
structure Row.Link (rows : List String) : Prop where
  distinct : (rows.filterMap defined?).Nodup
  defined : ∀ row ∈ rows, ∀ symbol ∈ uses row, symbol ∈ rows.filterMap defined?

instance (rows : List String) : Decidable (Row.Link rows) :=
  decidable_of_iff
    ((rows.filterMap Row.defined?).Nodup ∧
      ∀ row ∈ rows, ∀ symbol ∈ Row.uses row, symbol ∈ rows.filterMap Row.defined?)
    ⟨fun h => ⟨h.1, h.2⟩, fun h => ⟨h.distinct, h.defined⟩⟩

/-- The rows that a dispatch is compiled to refer to the right names and variables, given all
names and variables of the source in their order. -/
structure Dispatch.Links (names vars : List String) (d : Dispatch) (rows : List String) : Prop where
  /-- A name is pushed by its number. -/
  name (x : String) (h : d.turn.token.item = .ident x) :
    ∃ index : Nat, names[index]? = some x ∧ rows = ["    push name_" ++ index.repr]
  /-- A cell is used by a store or a fetch only, and belongs to the variable named on top. -/
  cell (index : Nat) (row : String) (hrow : row ∈ rows)
    (h : "var_" ++ index.repr ∈ Row.uses row) :
    (d.turn.IsStore ∨ d.turn.IsFetch) ∧
      ∃ x rest, d.found.stack.items = .name x :: rest ∧ vars[index]? = some x

namespace Assembly

section Marks

theorem TextLine.mark?_eq_some_iff {line : TextLine} {index : Nat} :
    line.mark? = some index ↔
      line.defined? = some (.mark index) ∨ .mark index ∈ line.references := by
  have hplace (place : Memory) : .mark index ∉ place.references := by
    cases place <;> simp [Memory.references]
  cases line with
  | code instruction =>
      cases instruction <;>
        simp [mark?, defined?, references, Instruction.references, hplace, eq_comm]
  | label other => simp [mark?, defined?, references]
  | source line => simp [mark?, defined?, references]
  | report report => simp [mark?, defined?, references]

/-- Only labels and jumps are marked, and the assembler reads these. -/
theorem TextLine.isAssembled_of_mark? {line : TextLine} (h : line.mark?.isSome = true) :
    line.isAssembled = true := by
  cases line with
  | code _ | label _ => rfl
  | source _ | report _ => cases h

variable {recover : Bool} {source : String} {listing : Listing}

/-- One item of a list without repetitions is picked. -/
theorem flatMap_pick {items : List Nat} (h : items.Nodup) (index : Nat)
    (lines : Nat → List TextLine) :
    (items.flatMap fun item => if item = index then lines item else []) =
      if index ∈ items then lines index else [] := by
  induction items with
  | nil => rfl
  | cons item rest ih =>
      obtain ⟨hitem, hrest⟩ := List.nodup_cons.1 h
      rw [List.flatMap_cons, ih hrest]
      by_cases hsame : item = index
      · subst hsame
        simp [hitem]
      · simp [hsame, Ne.symm hsame]

/-- Which labels a listing has, and where it refers to them. -/
theorem exists_marks (h : compile recover source = .ok listing) :
    ∃ count, listing.text.filterMap TextLine.defined? = (List.range' 1 count).map .mark ∧
      ∀ index, listing.text.filter (fun line => line.mark? = some index) =
        if index ∈ List.range' 1 count then skip index else [] := by
  obtain ⟨count, hmarks⟩ := Listing.marks_assembled h
  have hmarked : listing.text.filter (fun line => line.mark?.isSome) =
      (List.range' 1 count).flatMap skip := by
    rw [← hmarks, Listing.assembled, List.filter_filter]
    apply List.filter_congr
    intro line _
    cases hmark : line.mark?.isSome with
    | false => rfl
    | true => rw [TextLine.isAssembled_of_mark? hmark, Bool.and_true]
  refine ⟨count, ?_, ?_⟩
  · calc
      _ = (listing.text.filter fun line => line.mark?.isSome).filterMap TextLine.defined? := by
        rw [List.filterMap_filter]
        apply List.filterMap_congr
        intro line _
        cases line with
        | label index => rfl
        | code _ | source _ | report _ => simp [TextLine.defined?]
      _ = (List.range' 1 count).flatMap fun index => [.mark index] := by
        rw [hmarked, List.filterMap_flatMap]
        rfl
      _ = (List.range' 1 count).map .mark := List.map_eq_flatMap.symm
  · intro index
    have hskip (other : Nat) : (skip other).filter (fun line => line.mark? = some index) =
        if other = index then skip other else [] := by
      by_cases hsame : other = index
      · simp [skip, TextLine.mark?, hsame]
      · simp [skip, TextLine.mark?, hsame]
    calc
      _ = (listing.text.filter fun line => line.mark?.isSome).filter
          fun line => line.mark? = some index := by
        rw [List.filter_filter]
        apply List.filter_congr
        intro line _
        cases line.mark? <;> simp
      _ = (List.range' 1 count).flatMap fun other => if other = index then skip other else [] := by
        rw [hmarked, List.filter_flatMap]
        simp only [hskip]
      _ = if index ∈ List.range' 1 count then skip index else [] :=
        flatMap_pick List.nodup_range' index skip

end Marks

section Symbols

variable {recover : Bool} {source : String} {listing : Listing}

/-- Nothing is defined twice. -/
theorem nodup_definitions (h : compile recover source = .ok listing) :
    listing.definitions.Nodup := by
  obtain ⟨count, hmarks, _⟩ := exists_marks h
  have hmark : ((List.range' 1 count).map Reference.mark).Nodup :=
    List.Nodup.map (fun _ _ => Reference.mark.inj) List.nodup_range'
  have hformat : (Format.all.map fun format => Reference.symbol (.format format)).Nodup := by
    decide
  have hsymbol {symbol : Nat → Symbol} (hinj : Function.Injective symbol) (count : Nat) :
      ((List.range count).map fun index => Reference.symbol (symbol index)).Nodup :=
    List.Nodup.map (fun _ _ hsame => hinj (Reference.symbol.inj hsame)) List.nodup_range
  have hname := hsymbol (fun _ _ => Symbol.name.inj) listing.names.length
  have hcell := hsymbol (fun _ _ => Symbol.cell.inj) listing.vars.length
  rw [Listing.definitions, hmarks]
  simp only [List.nodup_append, hmark, hformat, hname, hcell, List.mem_append, List.mem_map,
    List.mem_cons]
  grind

/-- What computes or prints refers to nothing but the formats and the external function. -/
theorem references_of_isPlain {instruction : Instruction} (h : instruction.isPlain = true) :
    ∀ reference ∈ instruction.references,
      reference ∈ Reference.printf :: Format.all.map fun format => .symbol (.format format) := by
  unfold Instruction.isPlain at h
  split at h
  · exact fun reference => nofun
  · exact fun reference => nofun
  · exact fun reference => nofun
  · have hfixed : ∀ instruction ∈ Instruction.fixed, ∀ reference ∈ instruction.references,
        reference ∈ Reference.printf :: Format.all.map fun format => .symbol (.format format) := by
      decide
    exact hfixed instruction (of_decide_eq_true h)

/-- The name and variables that a visit refers to are those with these numbers in the end. -/
theorem getElem?_of_visit (h : compile recover source = .ok listing) {v : Visit}
    (hv : v ∈ Shape.empty.visits (Turn.ofSource source)) {x : String} :
    (v.turn.command = .push (.name x) → listing.names[v.found.nameIndex x]? = some x) ∧
      (x ∈ v.found.vars → listing.vars[v.found.vars.idxOf x]? = some x) := by
  obtain ⟨_, hnames, hvars⟩ := compile_eq_page h
  rw [hnames, hvars]
  constructor
  · intro hcommand
    have hpushed := v.turn.pushed?_command
    rw [hcommand] at hpushed
    exact Shape.getElem?_of_pushed hv hpushed.symm
  · exact Shape.getElem?_of_mem_vars hv

/-- Whatever a line of the text refers to is defined. -/
theorem mem_definitions_of_references (h : compile recover source = .ok listing)
    {line : TextLine} (hline : line ∈ listing.text) {reference : Reference}
    (hreference : reference ∈ line.references) : reference ∈ listing.definitions := by
  have hname {index : Nat} {x : String} (hindex : listing.names[index]? = some x) :
      .symbol (.name index) ∈ listing.definitions := by
    obtain ⟨hlength, _⟩ := List.getElem?_eq_some_iff.1 hindex
    simp [Listing.definitions, hlength]
  have hcell {index : Nat} {x : String} (hindex : listing.vars[index]? = some x) :
      .symbol (.cell index) ∈ listing.definitions := by
    obtain ⟨hlength, _⟩ := List.getElem?_eq_some_iff.1 hindex
    simp [Listing.definitions, hlength]
  cases line with
  | label _ | source _ | report _ => cases hreference
  | code instruction =>
      obtain ⟨v, hv, hemits⟩ := exists_emits_of_mem h (List.mem_filter.2 ⟨hline, rfl⟩)
      generalize hcommand : v.turn.command = command at hemits
      cases hemits with
      | plain _ hplain =>
          have hmem := references_of_isPlain hplain reference hreference
          simp only [Listing.definitions, List.mem_append, List.mem_cons] at hmem ⊢
          tauto
      | push x =>
          obtain rfl := List.mem_singleton.1 hreference
          exact hname ((getElem?_of_visit h hv).1 hcommand)
      | save _ hx =>
          obtain rfl := List.mem_singleton.1 hreference
          exact hcell ((getElem?_of_visit h hv).2 hx)
      | load _ hx =>
          obtain rfl := List.mem_singleton.1 hreference
          exact hcell ((getElem?_of_visit h hv).2 hx)
      | jump =>
          -- The jump is among the lines that refer to its label, and these hold the label too.
          obtain rfl := List.mem_singleton.1 hreference
          obtain ⟨count, hmarks, hlines⟩ := exists_marks h
          have hmem : .code (.skipIfEqual (v.found.labels + 1)) ∈
              listing.text.filter fun line => line.mark? = some (v.found.labels + 1) :=
            List.mem_filter.2 ⟨hline, decide_eq_true rfl⟩
          rw [hlines] at hmem
          split at hmem
          · next hindex =>
              have hmark := List.mem_map_of_mem (f := Reference.mark) hindex
              rw [← hmarks] at hmark
              simp [Listing.definitions, hmark]
          · cases hmem

/-- So is whatever a row of the file uses. -/
theorem mem_definitions_of_uses (h : compile recover source = .ok listing) {row symbol : String}
    (hrow : row ∈ listing.lines) (hsymbol : symbol ∈ Row.uses row) :
    symbol ∈ listing.definitions.map Reference.text := by
  obtain ⟨reference, rfl, hmem | ⟨line, hline, hmem⟩⟩ :=
    Listing.exists_reference_of_uses hrow hsymbol
  · apply List.mem_map_of_mem
    simp only [Reference.fixed, Listing.definitions, List.mem_append, List.mem_cons] at hmem ⊢
    tauto
  · exact List.mem_map_of_mem (mem_definitions_of_references h hline hmem)

theorem filterMap_defined?_rows (h : compile recover source = .ok listing) :
    (Text.rows listing.render).filterMap Row.defined? =
      listing.definitions.map Reference.text := by
  rw [rows_render h, listing.filterMap_defined?_lines]

/-- The rows of a file fit together. -/
theorem link_rows (h : compile recover source = .ok listing) :
    Row.Link (Text.rows listing.render) where
  distinct := by
    rw [filterMap_defined?_rows h]
    exact List.Nodup.map (fun _ _ => Reference.text_injective) (nodup_definitions h)
  defined row hrow symbol hsymbol := by
    rw [filterMap_defined?_rows h]
    rw [rows_render h] at hrow
    exact mem_definitions_of_uses h hrow hsymbol

end Symbols

section Code

/-- A slot of a name describes that name. -/
theorem Shape.Describes.name_on_top {shape : Shape} {s : State} (h : shape.Describes s)
    {x : String} {rest : List Slot} (hitems : shape.slots.items = .name x :: rest) :
    ∃ below, s.stack.items = .name x :: below := by
  have hslots := h.slots
  rw [hitems] at hslots
  cases hstack : s.stack.items with
  | nil =>
      rw [hstack] at hslots
      cases hslots
  | cons operand below =>
      rw [hstack, List.map_cons] at hslots
      cases operand with
      | integer n => cases hslots
      | name y =>
          cases hslots
          exact ⟨below, rfl⟩

/-- The rows of a visit refer to the right names and variables. -/
theorem links_of_visit {recover : Bool} {source : String} {listing : Listing}
    (h : compile recover source = .ok listing) {v : Visit} {d : Dispatch}
    (hv : v ∈ Shape.empty.visits (Turn.ofSource source)) (hd : v.Describes d) :
    d.Links listing.names listing.vars (v.emission.lines.map TextLine.text) := by
  have hindex {x : String} := getElem?_of_visit (x := x) h hv
  constructor
  · intro x hitem
    have hcommand : v.turn.command = .push (.name x) := by
      rw [hd.turn, Turn.command, hitem]
    refine ⟨v.found.nameIndex x, hindex.1 hcommand, ?_⟩
    rw [Visit.emission, hcommand]
    apply congrArg (fun row => [row])
    apply String.toList_inj.1
    simp [TextLine.text, Instruction.text, Symbol.text]
  · intro index row hrow huses
    obtain ⟨line, hline, rfl⟩ := List.mem_map.1 hrow
    rw [line.row_text.2] at huses
    obtain ⟨reference, hreference, htext⟩ := List.mem_map.1 huses
    obtain rfl : reference = .symbol (.cell index) := Reference.text_injective htext
    have hemits := v.found.emits_execute v.turn.command line hline
    generalize hcommand : v.turn.command = command at hemits
    cases hemits with
    | plain _ hplain =>
        have hmem := references_of_isPlain hplain _ hreference
        simp at hmem
    | push x => cases List.mem_singleton.1 hreference
    | @save x _ hitems hx =>
        cases List.mem_singleton.1 hreference
        obtain ⟨below, hbelow⟩ := hd.found.name_on_top hitems
        have hturn := Turn.command_eq_store_iff.1 hcommand
        rw [hd.turn] at hturn
        exact ⟨.inl hturn, x, below, hbelow, hindex.2 hx⟩
    | @load x _ hitems hx =>
        cases List.mem_singleton.1 hreference
        obtain ⟨below, hbelow⟩ := hd.found.name_on_top hitems
        have hturn := Turn.command_eq_fetch_iff.1 hcommand
        rw [hd.turn] at hturn
        exact ⟨.inr hturn, x, below, hbelow, hindex.2 hx⟩
    | jump => cases List.mem_singleton.1 hreference
    | label => cases hreference

end Code

section Sections

theorem intercalate_concat {words : List (List Char)} (h : words ≠ []) (last : List Char) :
    [','].intercalate (words ++ [last]) = [','].intercalate words ++ ',' :: last := by
  induction words with
  | nil => exact (h rfl).elim
  | cons word rest ih =>
      cases rest with
      | nil => simp [List.intercalate_cons_cons]
      | cons next rest =>
          have hlater := ih (List.cons_ne_nil next rest)
          rw [List.cons_append] at hlater
          rw [List.cons_append, List.cons_append, List.intercalate_cons_cons, hlater,
            List.intercalate_cons_cons]
          simp only [List.append_assoc]

theorem utf8_ne_nil {x : String} (h : x ≠ "") : Text.utf8 x ≠ [] := by
  rw [Text.utf8_eq_flatMap]
  cases hlist : x.toList with
  | nil => exact (h (String.toList_eq_nil_iff.1 hlist)).elim
  | cons c rest =>
      intro hnil
      have hlength := congrArg List.length hnil
      have hpos := c.utf8Size_pos
      simp at hlength
      omega

/-- The zero byte at the end of a name is one byte more. -/
theorem Listing.nameRow_eq_of_ne_empty (index : Nat) {x : String} (h : x ≠ "") :
    nameRow index x = "name_" ++ index.repr ++ " db " ++
      ",".intercalate ((Text.utf8 x ++ [0]).map fun byte : UInt8 => byte.toNat.repr) ++
        "    ; " ++ x := by
  have hwords : (Text.utf8 x).map (fun byte => byte.toNat.repr.toList) ≠ [] :=
    mt List.map_eq_nil_iff.1 (utf8_ne_nil h)
  have hbytes : (",".intercalate ((Text.utf8 x ++ [0]).map fun byte : UInt8 =>
      byte.toNat.repr)).toList =
        (",".intercalate ((Text.utf8 x).map fun byte => byte.toNat.repr)).toList ++
          ",0".toList := by
    rw [String.toList_intercalate, String.toList_intercalate, List.map_append, List.map_append,
      List.map_map]
    exact intercalate_concat hwords "0".toList
  apply String.toList_inj.1
  simp only [nameRow, String.toList_append, hbytes]
  simp [Symbol.text, Text.utf8]

/-- The rows of a listing, with the names and variables of its source. -/
theorem rows_of_compile {recover : Bool} {source : String} {listing : Listing}
    (h : compile recover source = .ok listing) :
    Text.rows listing.render =
      Listing.opening ++ listing.text.map TextLine.text ++ Listing.closing ++ Listing.formats ++
        (listing.names.zipIdx.map fun entry => "name_" ++ entry.2.repr ++ " db " ++
          ",".intercalate ((Text.utf8 entry.1 ++ [0]).map fun byte : UInt8 => byte.toNat.repr) ++
            "    ; " ++ entry.1) ++
        Listing.storage ++
        listing.vars.zipIdx.map fun entry =>
          "var_" ++ entry.2.repr ++ " resd 1    ; " ++ entry.1 := by
  have hdata : listing.data = listing.names.zipIdx.map fun entry => "name_" ++ entry.2.repr ++
      " db " ++ ",".intercalate ((Text.utf8 entry.1 ++ [0]).map fun byte : UInt8 =>
        byte.toNat.repr) ++ "    ; " ++ entry.1 := by
    apply List.map_congr_left
    intro entry hentry
    have hx := (isIdentifier_of_compile h).1 entry.1 (List.fst_mem_of_mem_zipIdx hentry)
    exact Listing.nameRow_eq_of_ne_empty entry.2 hx.nonempty
  rw [rows_render h, Listing.lines_eq, hdata]
  rfl

/-- No row that every file has refers to a label. -/
theorem mark_notMem_symbols {row : String}
    (h : row ∈ Listing.opening ++ Listing.closing ++ Listing.formats ++ Listing.storage)
    (index : Nat) : labelText index ∉ Row.symbols row := by
  intro hsymbol
  obtain ⟨reference, hreference, htext⟩ := Listing.exists_fixed_of_mem_symbols h hsymbol
  obtain rfl : reference = .mark index := Reference.text_injective htext
  simp [Reference.fixed] at hreference

/-- A line refers to a label exactly when its row does. -/
theorem TextLine.mark_mem_symbols_iff (line : TextLine) (index : Nat) :
    labelText index ∈ Row.symbols line.text ↔ line.mark? = some index := by
  have hmark : labelText index = (Reference.mark index).text := rfl
  have hinjective : Function.Injective Reference.text := fun _ _ => Reference.text_injective
  obtain ⟨hdefined, huses⟩ := line.row_text
  rw [Row.mem_symbols_iff, hdefined, huses, TextLine.mark?_eq_some_iff, hmark,
    List.mem_map_of_injective hinjective]
  apply or_congr_left
  cases line.defined? with
  | none => simp
  | some reference => simp [hinjective.eq_iff]

/-- The rows of a file that refer to a label are those of its text. -/
theorem filter_rows_mark (listing : Listing) (index : Nat) :
    listing.lines.filter (fun row => labelText index ∈ Row.symbols row) =
      (listing.text.filter fun line => line.mark? = some index).map TextLine.text := by
  have hnone {rows : List String} (h : ∀ row ∈ rows, labelText index ∉ Row.symbols row) :
      rows.filter (fun row => labelText index ∈ Row.symbols row) = [] :=
    List.filter_eq_nil_iff.2 fun row hrow => mt of_decide_eq_true (h row hrow)
  have hfixed : ∀ row ∈ Listing.opening ++ Listing.closing ++ Listing.formats ++ Listing.storage,
      labelText index ∉ Row.symbols row :=
    fun row hrow => mark_notMem_symbols hrow index
  simp only [List.forall_mem_append] at hfixed
  obtain ⟨⟨⟨hopening, hclosing⟩, hformats⟩, hstorage⟩ := hfixed
  have hdefining {row : String} {symbol : Symbol}
      (h : Row.defined? row = some (Reference.symbol symbol).text ∧ Row.uses row = []) :
      labelText index ∉ Row.symbols row := by
    rw [Row.mem_symbols_iff, h.1, h.2, Option.some.injEq]
    rintro (hsame | hmem)
    · cases (Reference.text_injective hsame : Reference.symbol symbol = .mark index)
    · cases hmem
  have hdata : ∀ row ∈ listing.data, labelText index ∉ Row.symbols row := by
    intro row hrow
    obtain ⟨number, x, _, rfl⟩ := Listing.exists_of_mem_data hrow
    exact hdefining (Listing.row_nameRow number x)
  have hcells : ∀ row ∈ listing.cells, labelText index ∉ Row.symbols row := by
    intro row hrow
    obtain ⟨number, x, _, rfl⟩ := Listing.exists_of_mem_cells hrow
    exact hdefining (Listing.row_cellRow number x)
  rw [Listing.lines_eq]
  simp only [List.filter_append, hnone hopening, hnone hclosing, hnone hformats, hnone hdata,
    hnone hstorage, hnone hcells, List.nil_append, List.append_nil, List.filter_map]
  congr 1
  apply List.filter_congr
  intro line _
  simp only [Function.comp_apply, line.mark_mem_symbols_iff]

end Sections

/-- Every listing links. No symbol is defined twice, and what is used is defined. The data has a
row for each name in the order in which the source first pushes it, and the cells one for each
variable in the order in which it is first declared. Whatever is dispatched refers to these by
their numbers. A label is used by two jumps in front of it, and nowhere else. -/
theorem compile_links (options : Options) {source : String} {listing : Listing}
    (h : compile options.recover source = .ok listing) :
    let rows := Text.rows listing.render
    let turns := Turn.ofSource source
    let dispatches := (Session.new options).dispatches turns
    let names := (turns.filterMap Turn.pushed?).eraseDups
    let vars := (turns.filterMap Turn.declared?).eraseDups
    (rows.filterMap Row.defined?).Nodup ∧
    (∀ row ∈ rows, ∀ symbol ∈ Row.uses row, (rows.filterMap Row.defined?).count symbol = 1) ∧
    rows = Listing.opening ++ listing.text.map TextLine.text ++ Listing.closing ++
      Listing.formats ++
      (names.zipIdx.map fun entry => "name_" ++ entry.2.repr ++ " db " ++
        ",".intercalate ((Text.utf8 entry.1 ++ [0]).map fun byte : UInt8 => byte.toNat.repr) ++
          "    ; " ++ entry.1) ++
      Listing.storage ++
      (vars.zipIdx.map fun entry => "var_" ++ entry.2.repr ++ " resd 1    ; " ++ entry.1) ∧
    (dispatches.map Dispatch.turn = turns ∧
      ∃ code : List (List String), listing.assembled.map TextLine.text = code.flatten ∧
        List.Forall₂ (Dispatch.Links names vars) dispatches code) ∧
    ∀ index : Nat, "mod_" ++ index.repr ∈ rows.filterMap Row.defined? →
      rows.filter (fun row => "mod_" ++ index.repr ∈ Row.symbols row) =
        ["    je mod_" ++ index.repr, "    je mod_" ++ index.repr,
          "mod_" ++ index.repr ++ ":"] := by
  intro rows turns dispatches names vars
  obtain ⟨_, hnames, hvars⟩ := compile_eq_page h
  replace hnames : listing.names = names := hnames.trans (Shape.names_after turns)
  replace hvars : listing.vars = vars := hvars.trans (Shape.vars_after turns)
  have hrows : rows = listing.lines := rows_render h
  have hlink : Row.Link rows := link_rows h
  have hvisits := visits_describe_dispatches options h
  refine ⟨hlink.distinct, ?_, ?_, ⟨?_, ?_⟩, ?_⟩
  · intro row hrow symbol hsymbol
    exact List.count_eq_one_of_mem hlink.distinct (hlink.defined row hrow symbol hsymbol)
  · have hread := rows_of_compile h
    rw [hnames, hvars] at hread
    exact hread
  · rw [← Shape.empty.map_turn_visits turns]
    exact (map_eq_map_of_forall₂ hvisits fun v d hd => hd.turn).symm
  · refine ⟨(Shape.empty.visits turns).map fun v => v.emission.lines.map TextLine.text, ?_, ?_⟩
    · rw [assembled_eq_visits h, List.map_flatMap, List.flatMap_def]
    · have hpairs := (List.forall₂_and_left _ _).2
        ⟨(fun v hv => hv : ∀ v ∈ Shape.empty.visits turns, v ∈ Shape.empty.visits turns), hvisits⟩
      rw [List.forall₂_map_right_iff, ← hnames, ← hvars]
      exact hpairs.flip.imp fun d v hd => links_of_visit h hd.1 hd.2
  · intro index hindex
    have hskip : (skip index).map TextLine.text = ["    je mod_" ++ index.repr,
        "    je mod_" ++ index.repr, "mod_" ++ index.repr ++ ":"] := by
      simp only [skip, List.map_cons, List.map_nil, TextLine.text, Instruction.text, labelText,
        ← String.append_assoc]
      rfl
    obtain ⟨count, hmarks, hlines⟩ := exists_marks h
    have hmem : index ∈ List.range' 1 count := by
      rw [filterMap_defined?_rows h] at hindex
      obtain ⟨reference, hreference, htext⟩ := List.mem_map.1 hindex
      obtain rfl : reference = .mark index := Reference.text_injective htext
      simpa [Listing.definitions, hmarks] using hreference
    rw [hrows]
    refine (filter_rows_mark listing index).trans ?_
    rw [hlines, if_pos hmem, hskip]

/-- The remainder jumps over its division, and the name is pushed and declared. -/
theorem compile_links_remainder_of_variable :
    ∃ listing, compile false "variable x 7 x ! x @ 3 mod ." = .ok listing ∧
      ((Text.rows listing.render).filterMap Row.defined?).Nodup ∧
      (Text.rows listing.render).filter (fun row => "mod_1" ∈ Row.symbols row) =
        ["    je mod_1", "    je mod_1", "mod_1:"] ∧
      listing.data = ["name_0 db 120,0    ; x"] ∧ listing.cells = ["var_0 resd 1    ; x"] := by
  have hparts : (compile false "variable x 7 x ! x @ 3 mod .").toOption.map (fun listing =>
      (listing.text.filterMap TextLine.defined?, listing.data, listing.cells)) =
      some ([.mark 1], ["name_0 db 120,0    ; x"], ["var_0 resd 1    ; x"]) := by
    decide +kernel
  cases hcompile : compile false "variable x 7 x ! x @ 3 mod ." with
  | error fatal =>
      rw [hcompile] at hparts
      cases hparts
  | ok listing =>
      rw [hcompile] at hparts
      obtain ⟨hlabels, hsections⟩ := Prod.mk.inj (Option.some.inj hparts)
      obtain ⟨hdata, hcells⟩ := Prod.mk.inj hsections
      have hlabel : (Reference.mark 1).text ∈
          (Text.rows listing.render).filterMap Row.defined? := by
        rw [filterMap_defined?_rows hcompile]
        apply List.mem_map_of_mem
        simp [Listing.definitions, hlabels]
      obtain ⟨hnodup, _, _, _, hmarks⟩ := compile_links {} hcompile
      exact ⟨listing, rfl, hnodup, hmarks 1 hlabel, hdata, hcells⟩

end Assembly

end StraightForth
