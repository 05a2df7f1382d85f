import StraightForth.Proofs.Dispatches
import StraightForth.Proofs.Foretelling
import StraightForth.Proofs.Scanning
import Mathlib.Data.List.Pairwise

/-!
# Where faults are reported

A fault is reported at the word that was dispatched, with one exception: where a declaring word
takes a token that cannot be a name, it is that token which is reported, and it gets no turn of
its own. The main statement is that every diagnostic of a run or of a compilation has such a
place in the source, and that the places go forward from one diagnostic to the next.
-/

namespace StraightForth

namespace Turn

/-- The token that a declaring word takes from its line. -/
def taken? (turn : Turn) : Option (Located Token) :=
  if turn.token.item = .word .declare then turn.rest.head? else none

/-- The token at which a fault of the turn is reported. -/
def blamed (turn : Turn) : Located Token := turn.taken?.getD turn.token

section Order

variable {line : Nat} {tokens : List (Located Token)} {turn other : Turn}

theorem taken?_mem {target : Located Token} (h : turn.taken? = some target) :
    target ∈ turn.rest := by
  unfold taken? at h
  split at h
  · exact List.mem_of_mem_head? h
  · cases h

theorem blamed_mem (turn : Turn) : turn.blamed ∈ turn.token :: turn.rest := by
  unfold blamed
  cases htaken : turn.taken? with
  | none => exact List.mem_cons_self
  | some target => exact List.mem_cons_of_mem _ (taken?_mem htaken)

/-- Tokens that stand in the order of their columns. -/
def InOrder (tokens : List (Located Token)) : Prop :=
  tokens.Pairwise fun token next => token.column.start < next.column.start

/-- A turn is over, with all that it has taken, where a later one starts. -/
def Precedes (turn other : Turn) : Prop :=
  turn.line < other.line ∨
    turn.line = other.line ∧ turn.blamed.column.start < other.token.column.start

theorem pairwise_precedes_ofTokens (line : Nat) (h : InOrder tokens) :
    (ofTokens line tokens).Pairwise Precedes := by
  fun_induction ofTokens line tokens with
  | case1 => exact .nil
  | case2 token => exact List.pairwise_singleton _ _
  | case3 token next rest hdeclare ih =>
      obtain ⟨_, hrest⟩ := List.pairwise_cons.1 h
      obtain ⟨hnext, hlater⟩ := List.pairwise_cons.1 hrest
      refine List.pairwise_cons.2 ⟨?_, ih hlater⟩
      intro other hother
      obtain ⟨hline, hsuffix⟩ := suffix_of_mem hother
      refine .inr ⟨hline.symm, ?_⟩
      have hblamed : blamed ⟨line, token, next :: rest⟩ = next := by
        simp [blamed, taken?, hdeclare]
      rw [hblamed]
      exact hnext _ (hsuffix.subset List.mem_cons_self)
  | case4 token next rest hdeclare ih =>
      obtain ⟨htoken, hrest⟩ := List.pairwise_cons.1 h
      refine List.pairwise_cons.2 ⟨?_, ih hrest⟩
      intro other hother
      obtain ⟨hline, hsuffix⟩ := suffix_of_mem hother
      refine .inr ⟨hline.symm, ?_⟩
      have hblamed : blamed ⟨line, token, next :: rest⟩ = token := by
        simp [blamed, taken?, hdeclare]
      rw [hblamed]
      exact htoken _ (hsuffix.subset List.mem_cons_self)

end Order

end Turn

/-- The tokens of a scan stand in the order of their columns. -/
theorem Token.inOrder_scan (text : List Char) : Turn.InOrder (scan text) := by
  rw [Turn.InOrder, scan, List.pairwise_map]
  refine (Text.pairwise_runs 0 (beforeComment text)).imp ?_
  intro run next hrun
  exact Nat.lt_of_le_of_lt (Nat.le_add_right _ _) hrun

/-- No token has the column that stands for none. -/
theorem Token.column_ne_unset {text : List Char} {token : Located Token} (h : token ∈ scan text) :
    token.column ≠ Span.unset := by
  obtain ⟨run, hrun, rfl⟩ := List.mem_map.1 h
  have hnonempty := (Text.fills_of_mem_runs hrun).1.nonempty
  intro hunset
  rw [show run.span = Span.unset from hunset] at hnonempty
  exact Nat.lt_irrefl 0 hnonempty

namespace Line

theorem inOrder_of_mem {source : String} {line : Line} (h : line ∈ ofSource source) :
    Turn.InOrder line.tokens := by
  obtain ⟨numbered, _, rfl⟩ := List.mem_map.1 h
  exact Token.inOrder_scan numbered.1

theorem column_ne_unset {source : String} {line : Line} (h : line ∈ ofSource source)
    {token : Located Token} (htoken : token ∈ line.tokens) : token.column ≠ Span.unset := by
  obtain ⟨numbered, _, rfl⟩ := List.mem_map.1 h
  exact Token.column_ne_unset htoken

/-- Lines are numbered in their order. -/
theorem pairwise_number_ofSource (source : String) :
    (ofSource source).Pairwise fun line next => line.number < next.number := by
  rw [ofSource, List.pairwise_map]
  exact List.pairwise_map.1 (List.zipIdx_map_snd 1 _ ▸ List.pairwise_lt_range')

end Line

namespace Turn

/-- The turns of a source follow one another. -/
theorem pairwise_precedes_ofSource (source : String) : (ofSource source).Pairwise Precedes := by
  rw [ofSource, List.pairwise_flatMap]
  constructor
  · intro line hline
    exact pairwise_precedes_ofTokens line.number (Line.inOrder_of_mem hline)
  · refine (Line.pairwise_number_ofSource source).imp ?_
    intro line next hnumber turn hturn other hother
    rw [Precedes, (suffix_of_mem hturn).1, (suffix_of_mem hother).1]
    exact .inl hnumber

end Turn

/-- No fault of a primitive knows a column. -/
theorem State.ownColumn_of_perform {s : State} {primitive : Primitive} {fault : Fault}
    (h : (s.perform primitive).2 = .abandoned fault) : fault.ownColumn = Span.unset := by
  cases harrangement : primitive.arrangement? with
  | some results =>
      obtain ⟨⟨items⟩, vars⟩ := s
      rw [State.perform_eq_arrange _ harrangement, State.arrange_eq] at h
      split at h
      · cases h
      all_goals
        cases h
        rfl
  | none =>
      obtain ⟨⟨items⟩, vars⟩ := s
      cases primitive with
      | dup => cases items <;> cases h
      | drop => cases items <;> cases h
      | print => cases items <;> cases h
      | printStack => cases h
      | copySecond => rcases items with _ | ⟨_, _ | _⟩ <;> cases h <;> rfl
      | negate =>
          rcases items with _ | ⟨_ | _, _⟩ <;> cases h
          rfl
      | fetch =>
          rcases items with _ | ⟨_ | x, rest⟩
          · cases h
            rfl
          · cases h
            rfl
          · rw [State.perform, State.fetch_eq_of_name rfl] at h
            split at h <;> cases h
            rfl
      | store =>
          rcases items with _ | ⟨target, _ | ⟨value, rest⟩⟩
          · cases h
            rfl
          · cases h
            rfl
          · simp only [State.perform, State.store, Stack.popTwo, Variables.assign_eq] at h
            cases target with
            | integer n =>
                cases h
                rfl
            | name x =>
                cases value <;> by_cases hx : x ∈ vars.names <;>
                  simp only [hx, if_true, if_false] at h <;> cases h <;> rfl
      | _ => cases harrangement

/-- A report has its place in a turn: on its line, at the token that is blamed. It is the token
of a word, unless a declaration refuses its name. -/
structure Diagnostic.PlacedAt (report : Diagnostic) (turn : Turn) : Prop where
  word : ∃ word, turn.token.item = .word word
  line : report.line = some turn.line
  column : report.column = turn.blamed.column
  taken : turn.taken?.isSome = true → report.kind = .invalidName

/-- A fault is reported where its turn is to blame. -/
theorem Dispatch.placedAt_of_report? {d : Dispatch} {report : Diagnostic}
    (hcolumns : ∀ token ∈ d.turn.token :: d.turn.rest, token.column ≠ Span.unset)
    (h : d.report? = some report) : report.PlacedAt d.turn := by
  obtain ⟨found, line, ⟨column, item⟩, rest⟩ := d
  obtain ⟨event, hevent, hreport⟩ := Option.bind_eq_some_iff.1 h
  cases item with
  | literal value => cases hevent
  | ident name => cases hevent
  | word word =>
      cases hprimitive : word.primitive? with
      | some primitive =>
          have hword : word ≠ .declare := by
            rintro rfl
            cases hprimitive
          have htaken : Turn.taken? ⟨line, ⟨column, .word word⟩, rest⟩ = none := by
            simp [Turn.taken?, hword]
          simp only [event?, effect, Turn.step, Turn.command, hprimitive] at hevent
          generalize heffect : (found.execute (.perform primitive)).2 = outcome at hevent
          cases outcome with
          | done => cases hevent
          | printed text =>
              cases hevent
              cases hreport
          | abandoned fault =>
              cases hevent
              cases hreport
              rw [Fault.reportAt_eq, State.ownColumn_of_perform heffect]
              refine ⟨⟨word, rfl⟩, rfl, ?_, ?_⟩
              · rw [Turn.blamed, htaken]
                rfl
              · rw [htaken]
                exact fun hsome => (Bool.false_ne_true hsome).elim
      | none =>
          -- Only a declaration knows a column of its own, that of the token it refuses.
          obtain rfl := Word.primitive?_eq_none_iff.1 hprimitive
          cases rest with
          | nil =>
              cases hevent
              cases hreport
              exact ⟨⟨_, rfl⟩, rfl, rfl, fun hsome => (Bool.false_ne_true hsome).elim⟩
          | cons target rest =>
              have htarget := hcolumns target (by simp)
              obtain ⟨place, item⟩ := target
              cases item with
              | ident name => cases hevent
              | literal value =>
                  cases hevent
                  cases hreport
                  rw [Fault.reportAt_eq]
                  exact ⟨⟨_, rfl⟩, rfl, if_neg htarget, fun _ => rfl⟩
              | word other =>
                  cases hevent
                  cases hreport
                  rw [Fault.reportAt_eq]
                  exact ⟨⟨_, rfl⟩, rfl, if_neg htarget, fun _ => rfl⟩

/-- A diagnostic has a place in front of another one's. -/
def Diagnostic.Before (report other : Diagnostic) : Prop :=
  ∃ line next, report.line = some line ∧ other.line = some next ∧
    (line < next ∨ line = next ∧ report.column.start < other.column.start)

/-- Diagnostics are well placed in a source. Each has its place in a turn of its own, on a line and
at a token that exist; the places are in order, and what a declaration has taken gets no turn. -/
structure WellPlaced (source : String) (reports : List Diagnostic) (turns : List Turn) : Prop where
  inSource : turns.Sublist (Turn.ofSource source)
  placed : List.Forall₂ Diagnostic.PlacedAt reports turns
  real : ∀ report ∈ reports, report.column ≠ Span.unset ∧ ∃ line ∈ Line.ofSource source,
    report.line = some line.number ∧ ∃ token ∈ line.tokens, report.column = token.column
  ordered : reports.Pairwise Diagnostic.Before
  undispatched : ∀ turn ∈ turns, ∀ target, turn.taken? = some target →
    ∀ other ∈ Turn.ofSource source, other.line = turn.line →
      other.token.column ≠ target.column

section Placing

variable {source : String} {turn other : Turn}

theorem Turn.column_ne_unset (h : turn ∈ Turn.ofSource source) :
    ∀ token ∈ turn.token :: turn.rest, token.column ≠ Span.unset := by
  obtain ⟨line, hline, _, hsuffix⟩ := Turn.exists_line_of_mem h
  exact fun token htoken => Line.column_ne_unset hline (hsuffix.subset htoken)

/-- What is taken stands behind the word that takes it. -/
theorem Turn.start_le_blamed (h : turn ∈ Turn.ofSource source) :
    turn.token.column.start ≤ turn.blamed.column.start ∧
      (turn.taken?.isSome = true → turn.token.column.start < turn.blamed.column.start) := by
  obtain ⟨line, hline, _, hsuffix⟩ := Turn.exists_line_of_mem h
  have horder : InOrder (turn.token :: turn.rest) :=
    (Line.inOrder_of_mem hline).sublist hsuffix.sublist
  have hbehind := (List.pairwise_cons.1 horder).1
  unfold blamed
  cases htaken : turn.taken? with
  | none => exact ⟨Nat.le_refl _, fun hsome => (Bool.false_ne_true hsome).elim⟩
  | some target =>
      have hlt := hbehind target (taken?_mem htaken)
      exact ⟨Nat.le_of_lt hlt, fun _ => hlt⟩

/-- No turn starts at what another one has taken. -/
theorem Turn.column_ne_of_taken? {target : Located Token} (h : turn ∈ Turn.ofSource source)
    (htaken : turn.taken? = some target) (hother : other ∈ Turn.ofSource source)
    (hline : other.line = turn.line) : other.token.column ≠ target.column := by
  have hblamed : turn.blamed = target := by rw [blamed, htaken]; rfl
  have hbehind := (start_le_blamed h).2 (htaken ▸ rfl)
  rw [hblamed] at hbehind
  intro hsame
  have hstart : other.token.column.start = target.column.start := congrArg Span.start hsame
  -- The other turn is this one, or comes before it, or comes after it.
  have hplace : turn = other ∨ turn.Precedes other ∨ other.Precedes turn := by
    by_cases heq : turn = other
    · exact .inl heq
    · have hsymmetric : Std.Symm fun a b : Turn => a.Precedes b ∨ b.Precedes a :=
        ⟨fun _ _ => Or.symm⟩
      have hordered : (Turn.ofSource source).Pairwise fun a b => a.Precedes b ∨ b.Precedes a :=
        (pairwise_precedes_ofSource source).imp .inl
      exact .inr (hordered.forall h hother heq)
  rcases hplace with rfl | hlater | hearlier
  · omega
  · rcases hlater with hlt | ⟨_, hlt⟩
    · omega
    · rw [hblamed] at hlt
      omega
  · rcases hearlier with hlt | ⟨_, hlt⟩
    · omega
    · have hle := (start_le_blamed hother).1
      omega

/-- Tokens are blamed in the order of the turns. -/
theorem Turn.pairwise_blamed_ofSource (source : String) :
    (Turn.ofSource source).Pairwise fun turn other => turn.line < other.line ∨
      turn.line = other.line ∧ turn.blamed.column.start < other.blamed.column.start := by
  refine (pairwise_precedes_ofSource source).imp_of_mem ?_
  rintro turn other _ hother (hlt | ⟨hline, hlt⟩)
  · exact .inl hlt
  · exact .inr ⟨hline, Nat.lt_of_lt_of_le hlt (start_le_blamed hother).1⟩

/-- An item of one of two lists that correspond has a partner in the other. -/
theorem exists_mem_of_forall₂ {α β : Type} {related : α → β → Prop} {items : List α}
    {others : List β} (h : List.Forall₂ related items others) {item : α} (hitem : item ∈ items) :
    ∃ other ∈ others, related item other := by
  induction h with
  | nil => cases hitem
  | cons hfirst _ ih =>
      rcases List.mem_cons.1 hitem with rfl | hitem
      · exact ⟨_, List.mem_cons_self, hfirst⟩
      · obtain ⟨other, hother, hrelated⟩ := ih hitem
        exact ⟨other, List.mem_cons_of_mem _ hother, hrelated⟩

/-- Lists that correspond to the same list correspond to each other. -/
theorem forall₂_trans {α β γ : Type} {first : α → β → Prop} {second : β → γ → Prop}
    {both : α → γ → Prop} (hboth : ∀ a b c, first a b → second b c → both a c) {items : List α}
    {middle : List β} {others : List γ} (h : List.Forall₂ first items middle)
    (h' : List.Forall₂ second middle others) : List.Forall₂ both items others := by
  induction h generalizing others with
  | nil =>
      cases h'
      exact .nil
  | cons hfirst _ ih =>
      cases h' with
      | cons hsecond hrest => exact .cons (hboth _ _ _ hfirst hsecond) (ih hrest)

/-- The order of a list is that of the list it corresponds to. -/
theorem pairwise_of_forall₂ {α β : Type} {related : α → β → Prop} {order : α → α → Prop}
    {order' : β → β → Prop} {items : List α} {others : List β}
    (h : List.Forall₂ related items others) (hothers : others.Pairwise order')
    (horder : ∀ a b a' b', related a a' → related b b' → order' a' b' → order a b) :
    items.Pairwise order := by
  induction h with
  | nil => exact .nil
  | cons hfirst hrest ih =>
      obtain ⟨hbehind, hothers⟩ := List.pairwise_cons.1 hothers
      refine List.pairwise_cons.2 ⟨?_, ih hothers⟩
      intro item hitem
      obtain ⟨other, hother, hrelated⟩ := exists_mem_of_forall₂ hrest hitem
      exact horder _ _ _ _ hfirst hrelated (hbehind other hother)

/-- Whatever is placed in turns of the source is located in it. -/
theorem wellPlaced_of_placed {reports : List Diagnostic} {turns : List Turn}
    (hturns : turns.Sublist (Turn.ofSource source))
    (hplaced : List.Forall₂ Diagnostic.PlacedAt reports turns) :
    WellPlaced source reports turns where
  inSource := hturns
  placed := hplaced
  real report hreport := by
    obtain ⟨turn, hturn, hplace⟩ := exists_mem_of_forall₂ hplaced hreport
    have hmem := hturns.subset hturn
    obtain ⟨line, hline, hnumber, hsuffix⟩ := Turn.exists_line_of_mem hmem
    rw [hplace.column, hplace.line, hnumber]
    exact ⟨Turn.column_ne_unset hmem _ turn.blamed_mem, line, hline, rfl, turn.blamed,
      hsuffix.subset turn.blamed_mem, rfl⟩
  ordered := by
    refine pairwise_of_forall₂ hplaced ((Turn.pairwise_blamed_ofSource source).sublist hturns) ?_
    intro report next turn other hreport hnext horder
    refine ⟨turn.line, other.line, hreport.line, hnext.line, ?_⟩
    rw [hreport.column, hnext.column]
    exact horder
  undispatched turn hturn target htaken other hother hline :=
    Turn.column_ne_of_taken? (hturns.subset hturn) htaken hother hline

end Placing

section Dispatched

/-- The turns whose dispatches were abandoned. -/
def Dispatch.abandonedTurns (dispatches : List Dispatch) : List Turn :=
  (dispatches.filter (·.report?.isSome)).map Dispatch.turn

theorem Dispatch.placed_reports {source : String} {dispatches : List Dispatch}
    (h : ∀ d ∈ dispatches, d.turn ∈ Turn.ofSource source) :
    List.Forall₂ Diagnostic.PlacedAt (dispatches.filterMap report?)
      (abandonedTurns dispatches) := by
  induction dispatches with
  | nil => exact .nil
  | cons d rest ih =>
      have hrest := ih fun other hother => h other (List.mem_cons_of_mem d hother)
      have hcolumns := Turn.column_ne_unset (h d List.mem_cons_self)
      rw [List.filterMap_cons, abandonedTurns, List.filter_cons]
      cases hreport : d.report? with
      | none => exact hrest
      | some report => exact .cons (placedAt_of_report? hcolumns hreport) hrest

/-- The diagnostics of dispatched turns are well placed. -/
theorem Dispatch.wellPlaced_reports {source : String} {dispatches : List Dispatch}
    (h : (dispatches.map Dispatch.turn).Sublist (Turn.ofSource source)) :
    WellPlaced source (dispatches.filterMap report?) (abandonedTurns dispatches) := by
  apply wellPlaced_of_placed
  · exact (List.filter_sublist.map Dispatch.turn).trans h
  · apply placed_reports
    exact fun d hd => h.subset (List.mem_map_of_mem hd)

/-- What stands for a report before the run has the place of the report. -/
theorem Diagnostic.PlacedAt.foretold {early late : Diagnostic} {turn : Turn}
    (h : late.PlacedAt turn) (hforetells : early.Foretells late) : early.PlacedAt turn where
  word := h.word
  line := hforetells.line.trans h.line
  column := hforetells.column.trans h.column
  taken htaken := hforetells.kind.trans (h.taken htaken)

/-- The part of some diagnostics that comes last is well placed if all of them are. -/
theorem WellPlaced.of_append {source : String} {first last : List Diagnostic} {turns : List Turn}
    (h : WellPlaced source (first ++ last) turns) :
    ∃ turns', turns' <:+ turns ∧ WellPlaced source last turns' := by
  refine ⟨turns.drop first.length, List.drop_suffix _ _, wellPlaced_of_placed ?_ ?_⟩
  · exact (List.drop_sublist _ _).trans h.inSource
  · have hlast := List.forall₂_drop first.length h.placed
    rwa [List.drop_left] at hlast

/-- What is reported before the run. -/
def Assembly.reports : Except Diagnostic Assembly.Listing → List Diagnostic
  | .ok listing => listing.errors
  | .error fatal => [fatal]

/-- A run of the same source in a new session reports what the compiler reports, at the end if not
from the start on. -/
theorem exists_foretold_reports (options : Options) (source : String) :
    let run := (Session.new options).execute source
    ∃ first last, run.1.diagnostics ++ run.2.toList = first ++ last ∧
      List.Forall₂ Diagnostic.Foretells (Assembly.reports (Assembly.compile options.recover source))
        last := by
  intro run
  rcases compile_cases options source with ⟨listing, hcompile, hrun, hreports⟩ |
    ⟨fatal, hcompile, hrun⟩
  · refine ⟨[], run.1.diagnostics, ?_, ?_⟩
    · rw [show run.2 = none from hrun]
      exact List.append_nil _
    · rw [hcompile]
      exact hreports
  · refine ⟨run.1.diagnostics, [fatal], ?_, ?_⟩
    · rw [show run.2 = some fatal from hrun]
      rfl
    · rw [hcompile]
      have hfatal := (Session.isFatal_of_takeAll (Prod.ext rfl hrun)).1
      exact .cons (Diagnostic.foretells_refl (Diagnostic.not_tellsInteger_of_isFatal hfatal)) .nil

/-- The diagnostics of a run are well placed. -/
theorem Session.wellPlaced_execute (session : Session) (source : String) :
    let run := session.execute source
    let dispatches := session.start.dispatches (Turn.ofSource source)
    ∃ queued, run.1.events.toList = session.events.toList ++ queued ∧
      queued.filterMap Event.report? ++ run.2.toList = dispatches.filterMap Dispatch.report? ∧
      WellPlaced source (queued.filterMap Event.report? ++ run.2.toList)
        (Dispatch.abandonedTurns dispatches) := by
  intro run dispatches
  obtain ⟨queued, hqueued, hreports⟩ :=
    session.start.exists_reports_dispatches (Turn.ofSource source)
  rw [Turn.ofSource_map_step, events_start] at hqueued
  rw [Turn.ofSource_map_step] at hreports
  refine ⟨queued, hqueued, hreports, ?_⟩
  rw [show queued.filterMap Event.report? ++ run.2.toList = _ from hreports]
  exact Dispatch.wellPlaced_reports (session.start.turns_dispatches_prefix _).sublist

/-- So are those of a compilation, which come from the last turns that a run abandons. -/
theorem Assembly.exists_wellPlaced_compile (recover : Bool) (source : String) :
    ∃ turns, turns <:+ Dispatch.abandonedTurns
        ((Session.new { recover }).dispatches (Turn.ofSource source)) ∧
      WellPlaced source (reports (compile recover source)) turns := by
  obtain ⟨first, last, hrun, hforetells⟩ := exists_foretold_reports { recover } source
  obtain ⟨queued, hqueued, _, hplaced⟩ := (Session.new { recover }).wellPlaced_execute source
  have hdiagnostics : ((Session.new { recover }).execute source).1.diagnostics =
      queued.filterMap Event.report? := by
    rw [Session.diagnostics, hqueued]
    rfl
  rw [← hdiagnostics, hrun] at hplaced
  obtain ⟨turns, hsuffix, hlast⟩ := hplaced.of_append
  refine ⟨turns, hsuffix, wellPlaced_of_placed hlast.inSource ?_⟩
  exact forall₂_trans (fun _ _ _ hreport hplace => hplace.foretold hreport) hforetells hlast.placed

/-- Faults are reported where they are, each at a place of its own and in the order of the source.
In any session, the diagnostics that a run queues, with the one that ends it, are those of the
turns that were dispatched and abandoned. They are well placed in the source, and so is what the
compiler reports: it comes from the last of the turns that a new session abandons. -/
theorem faults_well_placed (session : Session) (recover : Bool) (source : String) :
    let run := session.execute source
    let dispatches := session.start.dispatches (Turn.ofSource source)
    dispatches.map Dispatch.turn <+: Turn.ofSource source ∧
      (∃ queued, run.1.events.toList = session.events.toList ++ queued ∧
        queued.filterMap Event.report? ++ run.2.toList = dispatches.filterMap Dispatch.report? ∧
        WellPlaced source (queued.filterMap Event.report? ++ run.2.toList)
          (Dispatch.abandonedTurns dispatches)) ∧
      ∃ turns, turns <:+ Dispatch.abandonedTurns
          ((Session.new { recover }).dispatches (Turn.ofSource source)) ∧
        WellPlaced source (Assembly.reports (Assembly.compile recover source)) turns := by
  intro run dispatches
  refine ⟨session.start.turns_dispatches_prefix _, ?_, ?_⟩
  · exact session.wellPlaced_execute source
  · exact Assembly.exists_wellPlaced_compile recover source

/-- The second word is taken by the first one, and only what comes behind has its turn. -/
example : (((Session.new {}).execute "variable variable +").1.events.toList.filterMap
    Event.report?).map Diagnostic.column = [⟨9, 17⟩, ⟨18, 19⟩] := by
  decide +kernel

end Dispatched

end StraightForth
