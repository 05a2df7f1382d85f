import StraightForth.Proofs.Likeness
import StraightForth.Proofs.History
import StraightForth.Proofs.Lockstep

/-!
# Alike programs run alike

A command compares names with each other, and it never looks at an integer. So two commands
that are alike have effects that are alike on states that are alike: one lemma for each kind of
command says so. The main statement is that texts whose lines are alike run in parallel, with
the same kinds of events in the same order and with states that stay alike.
-/

namespace StraightForth

/-- Both commands were carried out, or both printed, or both were abandoned for faults that are
alike. -/
inductive Outcome.Alike (l : Likeness) : Outcome → Outcome → Prop
  | done : Alike l .done .done
  | printed (text text' : String) : Alike l (.printed text) (.printed text')
  | abandoned {fault fault' : Fault} (h : fault.Alike l fault') :
      Alike l (.abandoned fault) (.abandoned fault')

/-- Two prints, or two diagnostics that are alike. -/
inductive Event.Alike (l : Likeness) : Event → Event → Prop
  | print (text text' : String) : Alike l (.print text) (.print text')
  | diagnostic {report report' : Diagnostic} (h : report.Alike l report') :
      Alike l (.diagnostic report) (.diagnostic report')

/-- Effects with states and outcomes that are alike. -/
structure State.EffectsAlike (l : Likeness) (effect effect' : State × Outcome) : Prop where
  state : effect.1.Alike l effect'.1
  outcome : effect.2.Alike l effect'.2

variable {l : Likeness}

namespace Variables.Alike

variable {vars other : Variables} {x x' : String} {n n' : Int32}

theorem names (h : vars.Alike l other) : List.Forall₂ l.name vars.names other.names := by
  rw [Variables.names, Variables.names, List.forall₂_map_left_iff, List.forall₂_map_right_iff]
  exact h.imp fun _ _ hentry => hentry.1

/-- Look-ups under names that stand for each other find values that do so, or nothing. -/
theorem value? (h : vars.Alike l other) (hx : l.name x x') :
    Option.Rel l.Value (vars.value? x) (other.value? x') := by
  rw [Variables.Alike] at h
  simp only [Variables.value?]
  generalize vars.entries = entries at h
  generalize other.entries = entries' at h
  induction h with
  | nil => exact .none
  | @cons entry entry' _ _ hentry _ ih =>
      rw [List.lookup_cons, List.lookup_cons]
      by_cases hsame : x = entry.1
      · have hsame' : x' = entry'.1 := (l.name_iff hx hentry.1).1 hsame
        rw [beq_iff_eq.2 hsame, beq_iff_eq.2 hsame']
        exact .some hentry.2
      · have hother : x' ≠ entry'.1 := fun h => hsame ((l.name_iff hx hentry.1).2 h)
        rw [beq_false_of_ne hsame, beq_false_of_ne hother]
        exact ih

theorem declare (h : vars.Alike l other) (hx : l.name x x') :
    (vars.declare x).Alike l (other.declare x') := by
  have hdeclared : vars.isDeclared x = other.isDeclared x' := by
    rw [Bool.eq_iff_iff, isDeclared_iff, isDeclared_iff]
    exact Likeness.mem_iff h.names hx
  simp only [Variables.declare, hdeclared]
  split
  · exact h
  · exact List.rel_append h (.cons ⟨hx, l.value_refl 0⟩ .nil)

theorem overwrite (h : vars.Alike l other) (hx : l.name x x') (hn : l.Value n n') :
    (vars.overwrite x n).Alike l (other.overwrite x' n') := by
  simp only [Alike, Variables.overwrite]
  rw [List.forall₂_map_left_iff, List.forall₂_map_right_iff]
  apply h.imp
  intro entry entry' hentry
  by_cases hsame : entry.1 = x
  · rw [if_pos hsame, if_pos ((l.name_iff hentry.1 hx).1 hsame)]
    exact ⟨hx, hn⟩
  · rw [if_neg hsame, if_neg fun h => hsame ((l.name_iff hentry.1 hx).2 h)]
    exact hentry

end Variables.Alike

namespace State.Alike

variable {s t : State}

theorem empty : Alike l .empty .empty := ⟨.nil, .nil⟩

/-- States that are alike have empty stacks, or operands on top that are alike. -/
@[elab_as_elim]
theorem top_cases {motive : (s t : State) → s.Alike l t → Prop}
    (nothing : ∀ {vars vars' : Variables} (hvars : vars.Alike l vars'),
      motive ⟨⟨[]⟩, vars⟩ ⟨⟨[]⟩, vars'⟩ ⟨.nil, hvars⟩)
    (operand : ∀ {top top' : Operand} {rest rest' : List Operand} {vars vars' : Variables}
      (htop : top.Alike l top') (hrest : List.Forall₂ (Operand.Alike l) rest rest')
      (hvars : vars.Alike l vars'),
      motive ⟨⟨top :: rest⟩, vars⟩ ⟨⟨top' :: rest'⟩, vars'⟩ ⟨.cons htop hrest, hvars⟩)
    (h : s.Alike l t) : motive s t h := by
  obtain ⟨⟨items⟩, vars⟩ := s
  obtain ⟨⟨items'⟩, vars'⟩ := t
  have hstack := h.stack
  dsimp only at hstack
  cases hstack with
  | nil => exact nothing h.vars
  | cons htop hrest => exact operand htop hrest h.vars

/-- For the commands that take two operands: there are none, or one, or at least two. -/
@[elab_as_elim]
theorem top_two_cases {motive : (s t : State) → s.Alike l t → Prop}
    (nothing : ∀ {vars vars' : Variables} (hvars : vars.Alike l vars'),
      motive ⟨⟨[]⟩, vars⟩ ⟨⟨[]⟩, vars'⟩ ⟨.nil, hvars⟩)
    (single : ∀ {top top' : Operand} {vars vars' : Variables} (htop : top.Alike l top')
      (hvars : vars.Alike l vars'),
      motive ⟨⟨[top]⟩, vars⟩ ⟨⟨[top']⟩, vars'⟩ ⟨.cons htop .nil, hvars⟩)
    (operands : ∀ {top top' second second' : Operand} {rest rest' : List Operand}
      {vars vars' : Variables} (htop : top.Alike l top') (hsecond : second.Alike l second')
      (hrest : List.Forall₂ (Operand.Alike l) rest rest') (hvars : vars.Alike l vars'),
      motive ⟨⟨top :: second :: rest⟩, vars⟩ ⟨⟨top' :: second' :: rest'⟩, vars'⟩
        ⟨.cons htop (.cons hsecond hrest), hvars⟩)
    (h : s.Alike l t) : motive s t h := by
  cases h using top_cases with
  | nothing hvars => exact nothing hvars
  | operand htop hrest hvars =>
      cases hrest with
      | nil => exact single htop hvars
      | cons hsecond hrest => exact operands htop hsecond hrest hvars

/-- Integers that an arrangement makes of others stand for each other as these do. -/
theorem results_alike {primitive : Primitive} {results : Int32 → Int32 → List Int32}
    (h : primitive.arrangement? = some results) {left left' right right' : Int32}
    (hleft : l.Value left left') (hright : l.Value right right') :
    List.Forall₂ l.Value (results left right) (results left' right') := by
  cases primitive <;> cases h
  case add | subtract | multiply | modulo =>
    exact .cons (l.value_map₂ _ hleft hright) .nil
  case swap => exact .cons hright (.cons hleft .nil)
  case nip => exact .cons hright .nil
  case tuck => exact .cons hright (.cons hleft (.cons hright .nil))

theorem arrange (h : s.Alike l t) {primitive : Primitive} {results : Int32 → Int32 → List Int32}
    (hresults : primitive.arrangement? = some results) :
    EffectsAlike l (s.arrange results) (t.arrange results) := by
  cases h using top_two_cases with
  | nothing hvars =>
      rw [State.arrange_eq, State.arrange_eq]
      exact ⟨⟨.nil, hvars⟩, .abandoned .underflow⟩
  | single htop hvars =>
      rw [State.arrange_eq, State.arrange_eq]
      cases htop with
      | integer hvalue =>
          exact ⟨⟨.cons (.integer hvalue) .nil, hvars⟩, .abandoned .underflow⟩
      | name hname => exact ⟨⟨.cons (.name hname) .nil, hvars⟩, .abandoned .underflow⟩
  | operands htop hsecond hrest hvars =>
      rw [State.arrange_eq, State.arrange_eq]
      cases htop with
      | name hname => exact ⟨⟨hrest, hvars⟩, .abandoned (.operandIsName hname)⟩
      | integer hright =>
          cases hsecond with
          | name hname => exact ⟨⟨hrest, hvars⟩, .abandoned (.operandIsName hname)⟩
          | integer hleft =>
              refine ⟨⟨?_, hvars⟩, .done⟩
              rw [Stack.items_pushAll, Stack.items_pushAll, ← List.map_reverse,
                ← List.map_reverse]
              apply List.rel_append _ hrest
              rw [List.forall₂_map_left_iff, List.forall₂_map_right_iff]
              apply (List.rel_reverse (results_alike hresults hleft hright)).imp
              exact fun _ _ hvalue => .integer hvalue

/-- A store compares the name on top with those of the variables, and nothing else. -/
theorem store (h : s.Alike l t) : EffectsAlike l s.store t.store := by
  cases h using top_two_cases with
  | nothing hvars => exact ⟨⟨.nil, hvars⟩, .abandoned .underflow⟩
  | single htop hvars => exact ⟨⟨.cons htop .nil, hvars⟩, .abandoned .underflow⟩
  | @operands _ _ _ _ _ _ vars vars' htarget hvalue hrest hvars =>
      simp only [State.store, Stack.popTwo, Variables.assign_eq]
      cases htarget with
      | integer _ => exact ⟨⟨hrest, hvars⟩, .abandoned (.notAName _ _)⟩
      | @name x x' hx =>
          have hmem := Likeness.mem_iff hvars.names hx
          by_cases hdeclared : x ∈ vars.names
          · have hdeclared' := hmem.1 hdeclared
            cases hvalue with
            | integer hn =>
                simp only [if_pos hdeclared, if_pos hdeclared']
                exact ⟨⟨hrest, hvars.overwrite hx hn⟩, .done⟩
            | name hy =>
                simp only [if_pos hdeclared, if_pos hdeclared']
                exact ⟨⟨hrest, hvars⟩, .abandoned (.valueIsName hy)⟩
          · have hdeclared' : x' ∉ vars'.names := fun h => hdeclared (hmem.2 h)
            cases hvalue with
            | integer _ =>
                simp only [if_neg hdeclared, if_neg hdeclared']
                exact ⟨⟨hrest, hvars⟩, .abandoned (.undeclared hx)⟩
            | name _ =>
                simp only [if_neg hdeclared, if_neg hdeclared']
                exact ⟨⟨hrest, hvars⟩, .abandoned (.undeclared hx)⟩

theorem fetch (h : s.Alike l t) : EffectsAlike l s.fetch t.fetch := by
  cases h using top_cases with
  | nothing hvars => exact ⟨⟨.nil, hvars⟩, .abandoned .underflow⟩
  | @operand _ _ _ _ vars vars' htarget hrest hvars =>
      cases htarget with
      | integer _ => exact ⟨⟨hrest, hvars⟩, .abandoned (.notAName _ _)⟩
      | @name x x' hx =>
          rw [fetch_eq_of_name rfl, fetch_eq_of_name rfl]
          have hvalues := hvars.value? hx
          dsimp only
          generalize vars.value? x = value at hvalues ⊢
          generalize vars'.value? x' = value' at hvalues ⊢
          cases hvalues with
          | none => exact ⟨⟨hrest, hvars⟩, .abandoned (.undeclared hx)⟩
          | some hn => exact ⟨⟨.cons (.integer hn) hrest, hvars⟩, .done⟩

theorem dup (h : s.Alike l t) : EffectsAlike l s.dup t.dup := by
  cases h using top_cases with
  | nothing hvars => exact ⟨⟨.nil, hvars⟩, .done⟩
  | operand htop hrest hvars => exact ⟨⟨.cons htop (.cons htop hrest), hvars⟩, .done⟩

theorem drop (h : s.Alike l t) : EffectsAlike l s.drop t.drop := by
  cases h using top_cases with
  | nothing hvars => exact ⟨⟨.nil, hvars⟩, .done⟩
  | operand htop hrest hvars => exact ⟨⟨hrest, hvars⟩, .done⟩

theorem copySecond (h : s.Alike l t) : EffectsAlike l s.copySecond t.copySecond := by
  cases h using top_two_cases with
  | nothing hvars => exact ⟨⟨.nil, hvars⟩, .abandoned .underflow⟩
  | single htop hvars => exact ⟨⟨.cons htop .nil, hvars⟩, .abandoned .underflow⟩
  | operands htop hsecond hrest hvars =>
      exact ⟨⟨.cons hsecond (.cons htop (.cons hsecond hrest)), hvars⟩, .done⟩

theorem negate (h : s.Alike l t) : EffectsAlike l s.negate t.negate := by
  cases h using top_cases with
  | nothing hvars => exact ⟨⟨.nil, hvars⟩, .done⟩
  | operand htop hrest hvars =>
      cases htop with
      | integer hn =>
          have hnegated := l.value_map₂ (fun n _ => -n) hn hn
          exact ⟨⟨.cons (.integer hnegated) hrest, hvars⟩, .done⟩
      | name hx => exact ⟨⟨hrest, hvars⟩, .abandoned (.operandIsName hx)⟩

theorem print (h : s.Alike l t) : EffectsAlike l s.print t.print := by
  cases h using top_cases with
  | nothing hvars => exact ⟨⟨.nil, hvars⟩, .done⟩
  | operand htop hrest hvars => exact ⟨⟨hrest, hvars⟩, .printed _ _⟩

theorem perform (h : s.Alike l t) (primitive : Primitive) :
    EffectsAlike l (s.perform primitive) (t.perform primitive) := by
  cases harrangement : primitive.arrangement? with
  | some results =>
      rw [s.perform_eq_arrange harrangement, t.perform_eq_arrange harrangement]
      exact h.arrange harrangement
  | none =>
      cases primitive with
      | store => exact h.store
      | fetch => exact h.fetch
      | dup => exact h.dup
      | drop => exact h.drop
      | copySecond => exact h.copySecond
      | negate => exact h.negate
      | print => exact h.print
      | printStack => exact ⟨h, .printed _ _⟩
      | _ => cases harrangement

/-- Commands that are alike keep states so. -/
theorem execute (h : s.Alike l t) {command command' : Command}
    (hcommand : command.Alike l command') :
    EffectsAlike l (s.execute command) (t.execute command') := by
  cases hcommand with
  | push hoperand => exact ⟨⟨.cons hoperand h.stack, h.vars⟩, .done⟩
  | perform primitive => exact h.perform primitive
  | declare hx => exact ⟨⟨h.stack, h.vars.declare hx⟩, .done⟩
  | declareNothing => exact ⟨h, .abandoned .nameMissing⟩
  | declareReserved htoken column column' =>
      exact ⟨h, .abandoned (.nameReserved htoken column column')⟩

end State.Alike

theorem Event.Alike.isFatal {event event' : Event} (h : event.Alike l event') :
    event.isFatal = event'.isFatal := by
  cases h with
  | print text text' => rfl
  | diagnostic hreport => exact hreport.isFatal

/-- Steps that are alike correspond to each other. -/
theorem Step.Alike.corresponds {step other : Step} (h : step.Alike l other) :
    step.Corresponds (State.Alike l) (Event.Alike l) other := by
  intro s t hstates
  obtain ⟨hstate, houtcome⟩ := hstates.execute h.command
  refine ⟨hstate, ?_⟩
  generalize (s.execute step.command).2 = outcome at houtcome
  generalize (t.execute other.command).2 = outcome' at houtcome
  cases houtcome with
  | done => exact .none
  | printed text text' => exact .some (.print text text')
  | abandoned hfault =>
      simp only [Step.event?, h.line]
      exact .some (.diagnostic (.report hfault other.line step.column other.column))

/-- Texts with lines that are alike run in parallel. -/
theorem Session.parallel_of_alike {session other : Session} {source source' : String}
    (hlines : List.Forall₂ (Line.Alike l) (Line.ofSource source) (Line.ofSource source'))
    (hoptions : session.options = other.options)
    (hstate : session.state.Alike l other.state) :
    Parallel (State.Alike l) (Event.Alike l) session.events.toList other.events.toList
      (session.execute source) (other.execute source') := by
  have hsteps : List.Forall₂ (Step.Alike l) (Step.ofSource source) (Step.ofSource source') :=
    List.rel_flatMap hlines fun _ _ hline => hline.steps
  refine parallel_execute (fun _ _ h => h.isFatal) hoptions hstate .empty ?_
  exact hsteps.imp fun _ _ h => h.corresponds

end StraightForth
