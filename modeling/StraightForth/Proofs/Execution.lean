import StraightForth.Proofs.Machine
import Mathlib.Data.List.Basic

/-!
# Runs of code

What a piece of code does is stated for the code before and after it in general, so that pieces
can be put together. The machine never chooses, hence two runs from one place agree as far as
both go.
-/

namespace StraightForth.Assembly

namespace Environment

variable {env : Environment} {program : List TextLine}

/-- The machine takes at most one step from a configuration. -/
theorem step_rightUnique (env : Environment) (program : List TextLine) :
    Relator.RightUnique fun c d : Configuration => env.step program c = .ok d :=
  fun _ _ _ first second => Except.ok.inj (first.symm.trans second)

/-- Two runs from one place that have to stop do so in the same place, and for the same reason. -/
theorem eq_of_reaches_of_stop {start last c : Configuration} {final stop : Stop}
    (hlast : env.Reaches program start last) (hfinal : env.step program last = .error final)
    (hc : env.Reaches program start c) (hstop : env.step program c = .error stop) :
    c = last ∧ stop = final := by
  have hsame : c = last := by
    rcases Relation.ReflTransGen.total_of_right_unique (env.step_rightUnique program) hlast hc with
      h | h
    · rcases Relation.ReflTransGen.cases_head h with heq | ⟨next, hnext, _⟩
      · exact heq.symm
      · rw [hfinal] at hnext
        cases hnext
    · rcases Relation.ReflTransGen.cases_head h with heq | ⟨next, hnext, _⟩
      · exact heq
      · rw [hstop] at hnext
        cases hnext
  subst hsame
  exact ⟨rfl, Except.error.inj (hstop.symm.trans hfinal)⟩

/-- An instruction with an effect goes on to the next line. -/
theorem step_of_apply {position : Nat} {m after : Machine} {instruction : Instruction}
    (hline : program[position]? = some (.code instruction))
    (h : env.apply m instruction = .ok after) :
    env.step program ⟨position, m⟩ = .ok ⟨position + 1, after⟩ := by
  simp only [step]
  cases instruction with
  | skipIfEqual label => cases h
  | ret => cases h
  | _ =>
      simp only [hline, h]
      rfl

/-- A jump goes to its label when the last comparison found equal values. -/
theorem step_skip {position target label : Nat} {m : Machine} {equal : Bool}
    (hline : program[position]? = some (.code (.skipIfEqual label)))
    (htarget : program.idxOf? (.label label) = some target) (hequal : m.equal = some equal) :
    env.step program ⟨position, m⟩ = .ok ⟨if equal then target else position + 1, m⟩ := by
  simp only [step, hline, htarget, hequal]
  cases equal <;> rfl

/-- A program without cells of its own on the stack goes back to its caller. -/
theorem step_ret {position : Nat} {m : Machine}
    (hline : program[position]? = some (.code .ret)) (hstack : m.stack = []) :
    env.step program ⟨position, m⟩ = .error .returned := by
  simp only [step, hline, hstack, if_true]

/-- A label has no effect. -/
theorem step_label {position label : Nat} (m : Machine)
    (hline : program[position]? = some (.label label)) :
    env.step program ⟨position, m⟩ = .ok ⟨position + 1, m⟩ := by
  simp only [step, hline]

/-- A jump finds a label that does not stand before. -/
theorem idxOf?_label {front : List TextLine} {label : Nat} (h : .label label ∉ front)
    (back : List TextLine) :
    (front ++ .label label :: back).idxOf? (.label label) = some front.length := by
  have hmem : .label label ∈ front ++ .label label :: back :=
    List.mem_append_right _ List.mem_cons_self
  obtain ⟨index, hindex⟩ := Option.isSome_iff_exists.1 (List.isSome_idxOf?.2 hmem)
  have hvalue : (front ++ .label label :: back).idxOf (.label label) =
      front.length + (.label label :: back).idxOf (.label label) :=
    List.idxOf_append_of_notMem h
  rw [List.idxOf_eq_getD_idxOf?, hindex, List.idxOf_cons_self, Nat.add_zero] at hvalue
  rw [hindex]
  exact congrArg some hvalue

theorem reaches_code (before after : List TextLine) {instructions : List Instruction}
    {m result : Machine} (h : env.applyAll m instructions = .ok result) :
    env.Reaches (before ++ instructions.map .code ++ after) ⟨before.length, m⟩
      ⟨before.length + instructions.length, result⟩ := by
  induction instructions generalizing before m with
  | nil =>
      obtain rfl := Except.ok.inj h
      exact .refl
  | cons instruction rest ih =>
      rw [applyAll, List.foldlM_cons] at h
      cases hfirst : env.apply m instruction with
      | error stop =>
          rw [hfirst] at h
          cases h
      | ok next =>
          rw [hfirst] at h
          have hrest := ih (before ++ [.code instruction]) h
          rw [List.append_assoc before, List.length_append, List.length_singleton] at hrest
          have hposition : before.length + (instruction :: rest).length =
              before.length + 1 + rest.length := by
            rw [List.length_cons]
            omega
          rw [hposition]
          refine Relation.ReflTransGen.head (step_of_apply ?_ hfirst) hrest
          simp

/-- A line of a piece stands behind what comes before the piece. -/
theorem getElem?_within (before after : List TextLine) {lines : List TextLine} {index : Nat}
    (h : index < lines.length) :
    (before ++ lines ++ after)[before.length + index]? = lines[index]? := by
  rw [List.append_assoc, List.getElem?_append_right (Nat.le_add_right _ _), Nat.add_sub_cancel_left,
    List.getElem?_append_left h]

/-- Instructions in the middle of a piece. -/
theorem reaches_within (before after first last : List TextLine)
    {instructions : List Instruction} {m result : Machine}
    (h : env.applyAll m instructions = .ok result) :
    env.Reaches (before ++ (first ++ instructions.map .code ++ last) ++ after)
      ⟨before.length + first.length, m⟩
      ⟨before.length + first.length + instructions.length, result⟩ := by
  have hreaches := reaches_code (before ++ first) (last ++ after) h
  simpa only [List.append_assoc, List.length_append] using hreaches

/-- Lines of code lead from one machine to another wherever they stand, if all labels before
them are among the first ones. -/
def Executes (env : Environment) (labels : Nat) (lines : List TextLine) (m result : Machine) :
    Prop :=
  ∀ before after : List TextLine, (∀ label, .label label ∈ before → label ≤ labels) →
    env.Reaches (before ++ lines ++ after) ⟨before.length, m⟩
      ⟨before.length + lines.length, result⟩

theorem executes_code (labels : Nat) {instructions : List Instruction} {m result : Machine}
    (h : env.applyAll m instructions = .ok result) :
    env.Executes labels (instructions.map .code) m result := by
  intro before after _
  rw [List.length_map]
  exact reaches_code before after h

theorem executes_nil (labels : Nat) (m : Machine) : env.Executes labels [] m m :=
  executes_code labels (rfl : env.applyAll m [] = .ok m)

theorem Executes.append {labels more : Nat} {first second : List TextLine}
    {m middle result : Machine} (hfirst : env.Executes labels first m middle)
    (hsecond : env.Executes more second middle result) (hmore : labels ≤ more)
    (hlabels : ∀ label, .label label ∈ first → label ≤ more) :
    env.Executes labels (first ++ second) m result := by
  intro before after hbefore
  have hone := hfirst before (second ++ after) hbefore
  have htwo := hsecond (before ++ first) after fun label hlabel => by
    rcases List.mem_append.1 hlabel with hlabel | hlabel
    · exact Nat.le_trans (hbefore label hlabel) hmore
    · exact hlabels label hlabel
  simp only [List.append_assoc, List.length_append, Nat.add_assoc] at hone htwo ⊢
  exact Relation.ReflTransGen.trans hone htwo

end Environment

/-- The machine goes on with another stack and more output. Registers are not looked at. -/
structure Machine.Continues (m result : Machine) (stack : List Dword) (text : List UInt8) :
    Prop where
  stack : result.stack = stack
  output : result.output = m.output ++ text
  cells : result.cells = m.cells
  saved : result.saved = m.saved
  entry : result.entry = m.entry

/-- What is not printed and not stored only shows in the stack. -/
theorem Machine.continues_silent (m : Machine) (registers : Registers) (stack : List Dword)
    (equal : Option Bool) :
    m.Continues { m with registers := registers, stack := stack, equal := equal } stack [] where
  stack := rfl
  output := (List.append_nil _).symm
  cells := rfl
  saved := rfl
  entry := rfl

theorem Machine.Continues.trans {m middle result : Machine} {first second : List Dword}
    {text later : List UInt8} (hfirst : m.Continues middle first text)
    (hsecond : middle.Continues result second later) :
    m.Continues result second (text ++ later) where
  stack := hsecond.stack
  output := by rw [hsecond.output, hfirst.output, List.append_assoc]
  cells := hsecond.cells.trans hfirst.cells
  saved := hsecond.saved.trans hfirst.saved
  entry := hsecond.entry.trans hfirst.entry

namespace Environment

variable {env : Environment}

/-- Instructions turn the stack into another one and print a text. -/
def Carries (env : Environment) (instructions : List Instruction) (m : Machine)
    (stack : List Dword) (text : List UInt8) : Prop :=
  ∃ result, env.applyAll m instructions = .ok result ∧ m.Continues result stack text

theorem carries_nil (m : Machine) : env.Carries [] m m.stack [] :=
  ⟨m, rfl, m.continues_silent m.registers m.stack m.equal⟩

theorem Carries.append {first second : List Instruction} {m : Machine} {stack last : List Dword}
    {text later : List UInt8} (hfirst : env.Carries first m stack text)
    (hsecond : ∀ middle : Machine, middle.stack = stack → env.Carries second middle last later) :
    env.Carries (first ++ second) m last (text ++ later) := by
  obtain ⟨middle, hmiddle, hcontinues⟩ := hfirst
  obtain ⟨result, hresult, hcontinued⟩ := hsecond middle hcontinues.stack
  refine ⟨result, ?_, hcontinues.trans hcontinued⟩
  rw [applyAll] at hmiddle hresult ⊢
  rw [List.foldlM_append, hmiddle]
  exact hresult

/-- A cell is pushed first. -/
theorem Carries.push {instruction : Instruction} {rest : List Instruction} {m : Machine}
    {cell : Dword} {stack : List Dword} {text : List UInt8}
    (happly : env.apply m instruction = .ok (m.push cell))
    (hrest : env.Carries rest (m.push cell) stack text) :
    env.Carries (instruction :: rest) m stack text := by
  obtain ⟨result, hresult, hcontinues⟩ := hrest
  refine ⟨result, ?_, (m.continues_silent m.registers (cell :: m.stack) m.equal).trans hcontinues⟩
  rw [applyAll, List.foldlM_cons, happly]
  exact hresult

theorem Carries.executes {instructions : List Instruction} {m : Machine} {stack : List Dword}
    {text : List UInt8} (h : env.Carries instructions m stack text) (labels : Nat) :
    ∃ result, env.Executes labels (instructions.map .code) m result ∧
      m.Continues result stack text := by
  obtain ⟨result, hresult, hcontinues⟩ := h
  exact ⟨result, executes_code labels hresult, hcontinues⟩

/-- Code that only looks at the stack, and only changes the stack and the registers. -/
theorem carries_of_stack {instructions : List Instruction} {m : Machine}
    {cells stack : List Dword} (hstack : m.stack = cells)
    (h : ∀ registers entry vars saved equal output, ∃ registers' equal',
      env.applyAll ⟨registers, entry, cells, vars, saved, equal, output⟩ instructions =
        .ok ⟨registers', entry, stack, vars, saved, equal', output⟩) :
    env.Carries instructions m stack [] := by
  subst hstack
  obtain ⟨registers', equal', happly⟩ :=
    h m.registers m.entry m.cells m.saved m.equal m.output
  exact ⟨_, happly, m.continues_silent registers' stack equal'⟩

/-- Cells that are there can be taken off. -/
theorem carries_release {m : Machine} {count : Nat} (h : count ≤ m.stack.length) :
    env.Carries [.release count] m (m.stack.drop count) [] := by
  refine ⟨_, ?_, m.continues_silent m.registers (m.stack.drop count) none⟩
  simp [applyAll, apply, Machine.release, Machine.forgetComparison, h]

end Environment

end StraightForth.Assembly
