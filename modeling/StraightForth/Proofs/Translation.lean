import StraightForth.Proofs.Assembling

/-!
# The compiler is correct

A session takes the turns of a source, and a machine their code. After each turn the machine mirrors
the session and has written what the session has printed. The main statement is about the rows of
the file. Whatever environment holds the strings in the data, the `main` that is assembled from the
rows does what a run of the source does and goes back to its caller, and no line of it can stop the
machine on the way.
-/

namespace StraightForth

open Assembly

section Runs

variable {env : Environment} {names : List String} {shape : Shape} {session after : Session}
  {m : Machine}

/-- The lines lead to a machine that mirrors a session after some turns, and write what the session
has printed in these. -/
def Assembly.Environment.Attends (env : Environment) (names : List String) (labels : Nat)
    (lines : List TextLine) (m : Machine) (session after : Session) : Prop :=
  ∃ result text, env.Executes labels lines m result ∧ env.Mirrors names after.state result ∧
    after.printed = session.printed ++ text ∧ result.output = m.output ++ Text.utf8 text

/-- The code for a turn does what the session does in it. The names may be more than are pushed so
far. -/
theorem Assembly.Environment.Mirrors.take {turn : Turn} (h : env.Mirrors names session.state m)
    (hshape : shape.Describes session.state) (hformats : env.HasFormats)
    (hstrings : env.HasNames names)
    (hnames : (shape.execute turn.command).shape.names <+: names)
    (hzero : ∀ x, turn.pushed? = some x → '\x00' ∉ x.toList)
    (htake : session.take turn.step = (after, none)) :
    env.Attends names shape.labels (shape.execute turn.command).lines m session after := by
  obtain ⟨hstate, hprinted⟩ := Session.take_eq_none htake
  have hpushed : ∀ x, turn.command = .push (.name x) → '\x00' ∉ x.toList := by
    intro x hpush
    apply hzero x
    rw [← turn.pushed?_command, hpush]
    rfl
  obtain ⟨result, hexecutes, hmirrors, houtput⟩ :=
    h.execute hshape hformats hstrings turn.command hnames hpushed
  exact ⟨result, _, hexecutes, hstate ▸ hmirrors, hprinted, houtput⟩

/-- So the code for the turns of a run does what the run does, as long as the run goes on. -/
theorem Assembly.Environment.Mirrors.takeAll {turns : List Turn}
    (h : env.Mirrors names session.state m) (hshape : shape.Describes session.state)
    (hformats : env.HasFormats) (hstrings : env.HasNames names)
    (hnames : (shape.after turns).names <+: names)
    (hzero : ∀ turn ∈ turns, ∀ x, turn.pushed? = some x → '\x00' ∉ x.toList)
    (hrun : session.takeAll (turns.map Turn.step) = (after, none)) :
    (shape.after turns).Describes after.state ∧
      env.Attends names shape.labels ((shape.visits turns).flatMap fun v => v.emission.lines) m
        session after := by
  induction turns generalizing shape session m with
  | nil =>
      obtain rfl := (Prod.mk.inj hrun).1
      exact ⟨hshape, m, "", Environment.executes_nil _ m, h, (String.append_empty).symm,
        (List.append_nil _).symm⟩
  | cons turn rest ih =>
      rw [List.map_cons, Session.takeAll] at hrun
      cases hresult : session.take turn.step with
      | mk next fatal =>
          rw [hresult] at hrun
          cases fatal with
          | some fatal => cases hrun
          | none =>
              have hextends := shape.extends_execute turn.command
              obtain ⟨middle, text, hexecutes, hmirrors, hprinted, houtput⟩ :=
                h.take hshape hformats hstrings
                  ((Shape.names_collects.prefix_after _ rest).trans hnames)
                  (hzero turn List.mem_cons_self) hresult
              -- The turns that follow find the shape of the state that this one leaves.
              have hdescribes : (shape.execute turn.command).shape.Describes next.state :=
                (Session.take_eq_none hresult).1 ▸ (hshape.execute turn.command).shape
              obtain ⟨hend, result, later, hlater, hafter, hprints, hwrites⟩ :=
                ih hmirrors hdescribes hnames
                  (fun other hother => hzero other (List.mem_cons_of_mem turn hother)) hrun
              refine ⟨hend, result, text ++ later, ?_, hafter, ?_, ?_⟩
              · exact hexecutes.append hlater hextends.labels fun _ => hextends.lines _
              · rw [hprints, hprinted, String.append_assoc]
              · rw [hwrites, houtput, Text.utf8_append, List.append_assoc]

end Runs

section Sources

/-- No name with the character zero in it, which would end its string too early. -/
def Token.ZeroFree : Token → Prop
  | .ident x => '\x00' ∉ x.toList
  | .word _ | .literal _ => True

instance : DecidablePred Token.ZeroFree
  | .ident x => inferInstanceAs (Decidable ('\x00' ∉ x.toList))
  | .word _ | .literal _ => isTrue trivial

/-- A name that is pushed is written in the source. -/
theorem Turn.zero_notMem_of_pushed {source : String} {turn : Turn} {x : String}
    (hzero : ∀ line ∈ Line.ofSource source, ∀ token ∈ line.tokens, token.item.ZeroFree)
    (hturn : turn ∈ ofSource source) (hpushed : turn.pushed? = some x) : '\x00' ∉ x.toList := by
  obtain ⟨line, hline, _, hsuffix⟩ := exists_line_of_mem hturn
  have htoken := hzero line hline turn.token (hsuffix.subset List.mem_cons_self)
  rw [pushed?] at hpushed
  split at hpushed
  · next name hitem =>
      obtain rfl := Option.some.inj hpushed
      rwa [hitem] at htoken
  · cases hpushed

end Sources

namespace Assembly

section Ends

variable {env : Environment} {listing : Listing} {m : Machine}

/-- The machine behind the first line of `main`, which saves the stack pointer. -/
def Machine.entered (registers : Registers) (pointer : Dword) : Machine :=
  { Machine.enter registers pointer with saved := pointer }

theorem Environment.applyAll_prologue (env : Environment) (registers : Registers)
    (pointer : Dword) :
    env.applyAll (.enter registers pointer) Listing.prologue =
      .ok (.entered registers pointer) := by
  have hpointer : (Machine.enter registers pointer).get .esp = pointer :=
    Machine.pointerAt_zero _
  simp only [Listing.prologue, Environment.applyAll, List.foldlM_cons, List.foldlM_nil,
    Environment.apply, Machine.write, hpointer]
  rfl

/-- The machine at the end of `main`: the cells of the program are gone, and zero is returned. -/
def Machine.finished (m : Machine) : Machine :=
  { m with registers := { m.registers with eax := 0 }, stack := [], equal := none }

namespace Listing

/-- The number of lines before the end of `main`. -/
def bottom (listing : Listing) : Nat := prologue.length + listing.assembled.length

theorem drop_bottom (listing : Listing) :
    listing.program.drop listing.bottom = epilogue.map .code := by
  rw [program]
  apply List.drop_left'
  rw [List.length_append, List.length_map]
  rfl

/-- The code of a listing is reached from the entry of `main`, and leads to its end. -/
theorem reaches_bottom {registers : Registers} {pointer : Dword}
    (h : env.Executes 0 listing.assembled (.entered registers pointer) m) :
    env.Reaches listing.program ⟨0, .enter registers pointer⟩ ⟨listing.bottom, m⟩ := by
  have hprologue := Environment.reaches_code [] (listing.assembled ++ epilogue.map .code)
    (env.applyAll_prologue registers pointer)
  have htext := h (prologue.map .code) (epilogue.map .code) fun label hlabel => by
    simp at hlabel
  rw [List.nil_append, ← List.append_assoc, List.length_nil, Nat.zero_add] at hprologue
  rw [List.length_map] at htext
  exact hprologue.trans htext

/-- The end of `main` drops the cells of the program and goes back to the caller. -/
theorem reaches_finished (env : Environment) (listing : Listing) (hsaved : m.saved = m.entry) :
    env.Reaches listing.program ⟨listing.bottom, m⟩ ⟨listing.bottom + 2, m.finished⟩ ∧
      env.step listing.program ⟨listing.bottom + 2, m.finished⟩ = .error .returned := by
  have hleave : env.applyAll m [.load .esp (.symbol .stackStart), .zero .eax] =
      .ok m.finished := by
    change (m.set m.saved .esp >>= fun next => next.forgetComparison.set 0 .eax >>= pure) = _
    rw [hsaved, m.set_entry_esp]
    rfl
  have hlength : (prologue.map TextLine.code ++ listing.assembled).length = listing.bottom := by
    rw [List.length_append, List.length_map]
    rfl
  have hreaches :=
    Environment.reaches_code (prologue.map .code ++ listing.assembled) [.code .ret] hleave
  have hline := Environment.getElem?_within (prologue.map .code ++ listing.assembled) []
    (by decide : 2 < (epilogue.map TextLine.code).length)
  rw [List.append_assoc, hlength] at hreaches
  rw [List.append_nil, hlength] at hline
  exact ⟨hreaches, Environment.step_ret hline rfl⟩

end Listing

end Ends

section Environments

variable {env : Environment} {listing : Listing}

/-- The strings in the data of a file lie at their symbols. Nothing is known about one that no
zero byte ends. -/
def Environment.Loads (env : Environment) (image : Image) : Prop :=
  ∀ symbol bytes rest, (symbol, bytes ++ 0 :: rest) ∈ image.strings → 0 ∉ bytes →
    env.string (env.address symbol) = bytes

theorem Environment.Loads.formats (h : env.Loads listing.image) : env.HasFormats := by
  intro format
  have hformat : format ∈ Format.all ∧ 0 ∉ format.bytes := by
    cases format <;> decide +kernel
  apply h (.format format) format.bytes [] _ hformat.2
  exact List.mem_append_left _ (List.mem_map.2 ⟨format, hformat.1, rfl⟩)

theorem Listing.name_mem_strings {index : Nat} {x : String} (h : listing.names[index]? = some x) :
    (.name index, Text.utf8 x ++ [0]) ∈ listing.image.strings :=
  List.mem_append_right _ (List.mem_map.2 ⟨(x, index), List.mem_zipIdx_iff_getElem?.2 h, rfl⟩)

theorem Environment.Loads.names (h : env.Loads listing.image) : env.HasNames listing.names :=
  fun index x hindex hzero => h (.name index) (Text.utf8 x) [] (Listing.name_mem_strings hindex)
    (Text.zero_notMem_utf8 hzero)

/-- An environment in which each symbol of a file has an address of its own, and calls leave
everything as they found it. -/
def Environment.laidOut (image : Image) : Environment where
  address symbol := BitVec.ofNat 32 ((image.strings.map Prod.fst ++ image.cells).idxOf symbol)
  string address := image.strings[address.toNat]?.elim [] fun entry => upToZero entry.2
  scratch m := m.registers
  leftover m depth := m.stack.getD depth 0

/-- In it the strings are found again, if there are no more of them than addresses. -/
theorem Environment.laidOut_loads {image : Image} (hdistinct : (image.strings.map Prod.fst).Nodup)
    (hroom : image.strings.length ≤ UInt32.size) : (laidOut image).Loads image := by
  intro symbol bytes rest hentry hzero
  obtain ⟨index, hplace⟩ := List.mem_iff_getElem?.1 hentry
  have hsymbol : (image.strings.map Prod.fst)[index]? = some symbol := by
    rw [List.getElem?_map, hplace]
    rfl
  have haddress : (image.strings.map Prod.fst ++ image.cells).idxOf symbol = index := by
    rw [List.idxOf_append_of_mem (List.mem_of_getElem? hsymbol)]
    exact idxOf_of_getElem? hdistinct hsymbol
  have hvalue : (BitVec.ofNat 32 index).toNat = index := by
    have hindex := (List.getElem?_eq_some_iff.1 hplace).1
    exact Nat.mod_eq_of_lt (Nat.lt_of_lt_of_le hindex hroom)
  simp only [laidOut, haddress, hvalue, hplace, Option.elim_some]
  exact upToZero_append_zero hzero

theorem Listing.nodup_strings (listing : Listing) : (listing.strings.map Prod.fst).Nodup := by
  have hsymbols : listing.strings.map Prod.fst =
      Format.all.map .format ++ (List.range listing.names.length).map .name := by
    rw [strings, List.map_append, List.map_map, List.map_map, List.range_eq_range',
      ← List.zipIdx_map_snd 0 listing.names, List.map_map]
    rfl
  have hformats : (Format.all.map Symbol.format).Nodup := by decide
  have hnames : ((List.range listing.names.length).map Symbol.name).Nodup :=
    List.Nodup.map (fun _ _ => Symbol.name.inj) List.nodup_range
  rw [hsymbols]
  refine List.nodup_append.2 ⟨hformats, hnames, ?_⟩
  intro first hfirst second hsecond hsame
  obtain ⟨format, _, rfl⟩ := List.mem_map.1 hfirst
  obtain ⟨index, _, rfl⟩ := List.mem_map.1 hsecond
  cases hsame

/-- There is room for the strings of every listing, unless its names are numbered with more than
32 bits. -/
theorem Listing.loads_laidOut (h : listing.names.length + 7 ≤ UInt32.size) :
    (Environment.laidOut listing.image).Loads listing.image := by
  have hlength : listing.image.strings.length = listing.names.length + 7 := by
    simp [image, strings, Format.all]
  exact Environment.laidOut_loads listing.nodup_strings (hlength ▸ h)

end Environments

section Results

variable {env : Environment} {listing : Listing} {session : Session} {m : Machine}

/-- What the cell of an operand holds in a program that comes of a file: the integer itself, or the
address of a string that is the name. -/
def Environment.Represents (env : Environment) (image : Image) : Operand → Dword → Prop
  | .integer value, cell => cell = value.toBitVec
  | .name x, cell => ∃ index, (.name index, Text.utf8 x ++ [0]) ∈ image.strings ∧
      cell = env.address (.name index)

theorem Environment.Holds.represents {operand : Operand} {cell : Dword}
    (h : env.Holds listing.names operand cell) : env.Represents listing.image operand cell := by
  cases operand with
  | integer value => exact h
  | name x =>
      obtain ⟨_, index, hindex, hcell⟩ := h
      exact ⟨index, Listing.name_mem_strings hindex, hcell⟩

/-- The machine holds the stack of a session and all its variables, which have cells in a given
order, and it has written what the session has printed. -/
structure Environment.Reproduces (env : Environment) (image : Image) (vars : List String)
    (session : Session) (m : Machine) : Prop where
  stack : List.Forall₂ (env.Represents image) session.state.stack.bottomUp m.stack.reverse
  declared (x : String) : (session.state.vars.value? x).isSome ↔ x ∈ vars
  cells (index : Nat) (x : String) (h : vars[index]? = some x) : .cell index ∈ image.cells ∧
    session.state.vars.value? x = some (.ofBitVec (m.cells index))
  output : m.output = Text.utf8 session.printed

theorem Environment.Mirrors.reproduces (h : env.Mirrors listing.names session.state m)
    (hvars : listing.vars = session.state.vars.names)
    (houtput : m.output = Text.utf8 session.printed) :
    env.Reproduces listing.image listing.vars session m where
  stack := List.rel_reverse (h.stack.imp fun _ _ => Holds.represents)
  declared x := by
    rw [hvars]
    exact session.state.vars.isDeclared_iff x
  cells index x hindex := by
    constructor
    · have hlength := (List.getElem?_eq_some_iff.1 hindex).1
      exact List.mem_cons_of_mem _ (List.mem_map_of_mem (List.mem_range.2 hlength))
    · rw [hvars] at hindex
      obtain ⟨value, hvalue⟩ := Variables.exists_value?_of_mem (List.mem_of_getElem? hindex)
      have hplace := Variables.getElem?_idxOf hvalue
      rw [idxOf_of_getElem? h.distinct hindex] at hplace
      rw [hvalue, h.cells index, hplace]
      rfl
  output := houtput

end Results

end Assembly

/-- A compiled program does what a run of its source does. The rows of its file are assembled, and
what comes of them is taken by a machine with any registers, the stack anywhere and the strings of
the data in its memory. Its lines lead to the end of `main` with the stack and the variables of the
run in the machine, and everything written that the run has printed. From there `main` goes back to
its caller, and nothing else can stop it on the way. -/
theorem compile_correct (options : Options) {source : String} {listing : Listing}
    (hcompile : compile options.recover source = .ok listing)
    (hzero : ∀ line ∈ Line.ofSource source, ∀ token ∈ line.tokens, token.item.ZeroFree) :
    let run := (Session.new options).execute source
    let vars := ((Turn.ofSource source).filterMap Turn.declared?).eraseDups
    run.2 = none ∧ ∃ image, Image.ofRows? (Text.rows listing.render) = some image ∧
      ∀ (env : Environment) (registers : Registers) (pointer : Dword), env.Loads image →
        let start : Configuration := ⟨0, .enter registers pointer⟩
        (∃ bottom atEnd last,
          image.main.drop bottom =
            [.code (.load .esp (.symbol .stackStart)), .code (.zero .eax), .code .ret] ∧
          env.Reaches image.main start ⟨bottom, atEnd⟩ ∧
          env.Reproduces image vars run.1 atEnd ∧
          env.Reaches image.main ⟨bottom, atEnd⟩ last ∧
          env.step image.main last = .error .returned ∧
          last.machine.output = atEnd.output) ∧
        ∀ c stop, env.Reaches image.main start c → env.step image.main c = .error stop →
          stop = .returned := by
  intro run vars
  obtain ⟨_, hnames, hvars⟩ := compile_eq_page hcompile
  have hrun : run.2 = none := by
    rcases compile_cases options source with ⟨_, _, hnone, _⟩ | ⟨fatal, hfatal, _⟩
    · exact hnone
    · rw [hcompile] at hfatal
      cases hfatal
  have htaken : (Session.new options).takeAll ((Turn.ofSource source).map Turn.step) =
      (run.1, none) := by
    rw [Turn.ofSource_map_step, ← Session.execute_new, ← hrun]
  refine ⟨hrun, listing.image, compile_assembles hcompile, fun env registers pointer hloads => ?_⟩
  have hentered : env.Mirrors listing.names (Session.new options).state
      (.entered registers pointer) :=
    ⟨.nil, fun _ => rfl, List.nodup_nil, rfl⟩
  obtain ⟨hdescribes, atEnd, text, hexecutes, hmirrors, hprinted, houtput⟩ :=
    hentered.takeAll Shape.empty_describes hloads.formats hloads.names
      (hnames ▸ List.prefix_refl _)
      (fun turn hturn x => Turn.zero_notMem_of_pushed hzero hturn) htaken
  rw [← assembled_eq_visits hcompile] at hexecutes
  have hwritten : atEnd.output = Text.utf8 run.1.printed := by
    rw [hprinted, houtput]
    rfl
  have hreproduces := hmirrors.reproduces (hvars.trans hdescribes.vars) hwritten
  have hreaches := Listing.reaches_bottom hexecutes
  obtain ⟨hend, hreturn⟩ := listing.reaches_finished env hmirrors.saved
  rw [hvars.trans (Shape.vars_after _)] at hreproduces
  refine ⟨⟨listing.bottom, atEnd, _, listing.drop_bottom, hreaches, hreproduces, hend, hreturn,
    rfl⟩, fun c stop hc hstop => ?_⟩
  exact (Environment.eq_of_reaches_of_stop (hreaches.trans hend) hreturn hc hstop).2

/-- A division by zero is left out, and the name below it is printed with its zero. -/
theorem compile_correct_remainder_by_zero :
    ∃ listing image, compile false "foo 7 0 mod .s" = .ok listing ∧
      (∀ line ∈ Line.ofSource "foo 7 0 mod .s", ∀ token ∈ line.tokens, token.item.ZeroFree) ∧
      Image.ofRows? (Text.rows listing.render) = some image ∧
      (Environment.laidOut image).Loads image ∧
      ∃ last, (Environment.laidOut image).Reaches image.main
          ⟨0, .enter ⟨1, 2, 3, 4, 5, 6, 7⟩ 0xbffff000⟩ last ∧
        (Environment.laidOut image).step image.main last = .error .returned ∧
        last.machine.output = Text.utf8 "[Bottom -> Top] [foo, 0]\n" := by
  have hnames : (compile false "foo 7 0 mod .s").toOption.map Listing.names = some ["foo"] := by
    decide +kernel
  have hzero : ∀ line ∈ Line.ofSource "foo 7 0 mod .s", ∀ token ∈ line.tokens,
      token.item.ZeroFree := by
    decide +kernel
  have hprinted : ((Session.new {}).execute "foo 7 0 mod .s").1.printed =
      "[Bottom -> Top] [foo, 0]\n" := by
    decide +kernel
  cases hcompile : compile false "foo 7 0 mod .s" with
  | error fatal =>
      rw [hcompile] at hnames
      cases hnames
  | ok listing =>
      rw [hcompile] at hnames
      have hroom : listing.names.length + 7 ≤ UInt32.size := by
        rw [Option.some.inj hnames]
        decide
      have hloads := Listing.loads_laidOut hroom
      have hassembled := compile_assembles hcompile
      obtain ⟨_, image, himage, hruns⟩ := compile_correct {} hcompile hzero
      obtain rfl : listing.image = image := Option.some.inj (hassembled.symm.trans himage)
      obtain ⟨⟨bottom, atEnd, last, _, hreaches, hend, hlast, hreturn, houtput⟩, _⟩ :=
        hruns _ ⟨1, 2, 3, 4, 5, 6, 7⟩ 0xbffff000 hloads
      refine ⟨listing, _, rfl, hzero, himage, hloads, last, hreaches.trans hlast, hreturn, ?_⟩
      rw [houtput, hend.output, hprinted]

end StraightForth
