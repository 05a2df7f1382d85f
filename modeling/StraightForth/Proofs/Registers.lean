import StraightForth.Proofs.Execution

/-!
# The registers of the caller

No instruction changes a register that a call has to keep but for `ebx`, and only an instruction
that names `ebx` for its result changes that one. The main statement says so of every run.
-/

namespace StraightForth.Assembly

/-- The register that an instruction names for its result. -/
def Instruction.target? : Instruction → Option Register
  | .pop target | .multiplyBy target _ | .load target _ | .zero target => some target
  | _ => none

/-- No line changes `ebx`. -/
def SparesBase (lines : List TextLine) : Prop :=
  ∀ instruction, .code instruction ∈ lines → instruction.target? ≠ some .ebx

/-- A machine goes on with the registers that a call has to keep, `ebx` among them in case that a
condition holds. -/
structure Machine.Keeps (condition : Prop) (m result : Machine) : Prop where
  entry : result.entry = m.entry
  esi : result.registers.esi = m.registers.esi
  edi : result.registers.edi = m.registers.edi
  ebp : result.registers.ebp = m.registers.ebp
  ebx : condition → result.registers.ebx = m.registers.ebx

namespace Machine

variable {condition : Prop} {m middle result : Machine}

theorem Keeps.refl (condition : Prop) (m : Machine) : m.Keeps condition m :=
  ⟨rfl, rfl, rfl, rfl, fun _ => rfl⟩

theorem Keeps.trans (hfirst : m.Keeps condition middle) (hsecond : middle.Keeps condition result) :
    m.Keeps condition result where
  entry := hsecond.entry.trans hfirst.entry
  esi := hsecond.esi.trans hfirst.esi
  edi := hsecond.edi.trans hfirst.edi
  ebp := hsecond.ebp.trans hfirst.ebp
  ebx h := (hsecond.ebx h).trans (hfirst.ebx h)

theorem Keeps.imp {weaker : Prop} (h : m.Keeps condition result) (himp : weaker → condition) :
    m.Keeps weaker result :=
  ⟨h.entry, h.esi, h.edi, h.ebp, fun hweaker => h.ebx (himp hweaker)⟩

/-- The stack, the memory and the last comparison do not show in the registers. -/
theorem keeps_of_registers (hentry : result.entry = m.entry)
    (hregisters : result.registers = m.registers) : m.Keeps condition result := by
  refine ⟨hentry, ?_, ?_, ?_, fun _ => ?_⟩ <;> rw [hregisters]

theorem keeps_set {value : Dword} {target : Register} (h : m.set value target = .ok result) :
    m.Keeps (target ≠ .ebx) result := by
  cases target with
  | eax | edx =>
      obtain rfl := Except.ok.inj h
      exact ⟨rfl, rfl, rfl, rfl, fun _ => rfl⟩
  | ebx =>
      obtain rfl := Except.ok.inj h
      exact ⟨rfl, rfl, rfl, rfl, fun hne => (hne rfl).elim⟩
  | esp =>
      simp only [set] at h
      split at h
      · obtain rfl := Except.ok.inj h
        exact keeps_of_registers rfl rfl
      · cases h

theorem keeps_setCell {depth : Nat} {value : Dword} (h : m.setCell depth value = .ok result) :
    m.Keeps condition result := by
  unfold setCell at h
  split at h
  · obtain rfl := Except.ok.inj h
    exact keeps_of_registers rfl rfl
  · cases h

theorem keeps_write {value : Dword} {target : Memory} (h : m.write value target = .ok result) :
    m.Keeps condition result := by
  cases target with
  | top => exact keeps_setCell h
  | below depth => exact keeps_setCell h
  | symbol symbol =>
      cases symbol with
      | cell _ | stackStart =>
          obtain rfl := Except.ok.inj h
          exact keeps_of_registers rfl rfl
      | name _ | format _ => cases h

theorem keeps_release {count : Nat} (h : m.release count = .ok result) :
    m.Keeps condition result := by
  unfold release at h
  split at h
  · obtain rfl := Except.ok.inj h
    exact keeps_of_registers rfl rfl
  · cases h

/-- A division changes `eax` and `edx`. -/
theorem keeps_divide {divisor : Dword} (h : m.divide divisor = .ok result) :
    m.Keeps condition result := by
  unfold divide at h
  simp only at h
  split at h
  · cases h
  · obtain rfl := Except.ok.inj h
    exact ⟨rfl, rfl, rfl, rfl, fun _ => rfl⟩

end Machine

namespace Environment

variable {env : Environment} {condition : Prop} {m result : Machine} {program : List TextLine}

/-- A call changes the registers that it may change. -/
theorem keeps_printf (h : env.printf m = .ok result) : m.Keeps condition result := by
  unfold printf at h
  split at h
  · cases h
  · next format arguments hstack =>
      cases hexpand : env.expand (env.string format) arguments with
      | error stop =>
          rw [hexpand] at h
          cases h
      | ok printed =>
          rw [hexpand] at h
          obtain rfl := Except.ok.inj h
          exact ⟨rfl, rfl, rfl, rfl, fun _ => rfl⟩

/-- What is read first has no effect on what is kept. -/
theorem keeps_bind {α : Type} {value : Except Stop α} {next : α → Except Stop Machine}
    (h : (value >>= next) = .ok result)
    (hnext : ∀ found, next found = .ok result → m.Keeps condition result) :
    m.Keeps condition result := by
  cases value with
  | error stop => cases h
  | ok found => exact hnext found h

theorem keeps_apply {instruction : Instruction} (h : env.apply m instruction = .ok result) :
    m.Keeps (instruction.target? ≠ some .ebx) result := by
  have hforget : m.Keeps (instruction.target? ≠ some .ebx) m.forgetComparison :=
    Machine.keeps_of_registers rfl rfl
  cases instruction with
  | pushInt _ | pushAddress _ | pushRegister _ | compare _ _ =>
      obtain rfl := Except.ok.inj h
      exact Machine.keeps_of_registers rfl rfl
  | pushMemory source =>
      apply keeps_bind h
      intro cell hpush
      obtain rfl := Except.ok.inj hpush
      exact Machine.keeps_of_registers rfl rfl
  | pop target =>
      simp only [apply] at h
      split at h
      · cases h
      · next rest _ =>
          have hpopped : m.Keeps (target ≠ .ebx) { m with stack := rest } :=
            Machine.keeps_of_registers rfl rfl
          exact (hpopped.trans (Machine.keeps_set h)).imp fun hne heq => hne (congrArg some heq)
  | addTo target source | subtractFrom target source | negate target =>
      apply keeps_bind h
      intro value hwrite
      exact hforget.trans (Machine.keeps_write hwrite)
  | multiplyBy target source =>
      apply keeps_bind h
      intro value hset
      apply hforget.trans
      exact (Machine.keeps_set hset).imp fun hne heq => hne (congrArg some heq)
  | load target source =>
      apply keeps_bind h
      intro value hset
      exact (Machine.keeps_set hset).imp fun hne heq => hne (congrArg some heq)
  | save target source => exact Machine.keeps_write h
  | release count => exact Machine.keeps_release h
  | zero target =>
      apply hforget.trans
      exact (Machine.keeps_set h).imp fun hne heq => hne (congrArg some heq)
  | extendSign =>
      obtain rfl := Except.ok.inj h
      exact ⟨rfl, rfl, rfl, rfl, fun _ => rfl⟩
  | divide divisor => exact Machine.keeps_divide h
  | callPrintf => exact keeps_printf h
  | skipIfEqual _ | ret => cases h

/-- Only lines of code change a machine. -/
theorem keeps_step {c d : Configuration} (h : env.step program c = .ok d) :
    c.machine.Keeps (SparesBase program) d.machine := by
  unfold step at h
  split at h
  · cases h
  · split at h
    · obtain rfl := Except.ok.inj h
      exact .refl _ c.machine
    · obtain rfl := Except.ok.inj h
      exact .refl _ c.machine
    · cases h
  · split at h <;> cases h
  · next instruction _ _ hline =>
      cases happly : env.apply c.machine instruction with
      | error stop =>
          rw [happly] at h
          cases h
      | ok after =>
          rw [happly] at h
          obtain rfl := Except.ok.inj h
          apply (keeps_apply happly).imp
          exact fun hspares => hspares instruction (List.mem_of_getElem? hline)
  · obtain rfl := Except.ok.inj h
    exact .refl _ c.machine

/-- However far a program runs, the registers of its caller are kept, and `ebx` is as well if no
line changes it. -/
theorem keeps_reaches {c d : Configuration} (h : env.Reaches program c d) :
    c.machine.Keeps (SparesBase program) d.machine := by
  induction h with
  | refl => exact .refl _ c.machine
  | tail _ hstep ih => exact ih.trans (keeps_step hstep)

theorem Executes.keeps {labels : Nat} {lines : List TextLine}
    (h : env.Executes labels lines m result) : m.Keeps (SparesBase lines) result := by
  have hreaches := h [] [] fun label hlabel => by cases hlabel
  rw [List.nil_append, List.append_nil] at hreaches
  exact keeps_reaches hreaches

end Environment

end StraightForth.Assembly
