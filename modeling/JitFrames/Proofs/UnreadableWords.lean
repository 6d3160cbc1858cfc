import JitFrames.ProcessImage
import JitFrames.Proofs.AccessOrder
import JitFrames.Proofs.FailedSteps
import JitFrames.Proofs.WalkLimits

/-! Unwinding where no word of the configured width can be read. The word at the root symbol comes first and may
fail, so every frame is declined; with a function list given apart from the memory the first saved word reports
it. -/
namespace JitFrames

/-- No word of the width can be read. -/
def Memory.Refuses (m : Memory) (width : Nat) : Prop := ∀ addr, ∃ e, m.word addr width = .error e

/-- It is the error of some word of the width. -/
def Memory.FailsWith (m : Memory) (width : Nat) (e : AccessError) : Prop := ∃ addr, m.word addr width = .error e

/-- Every error of a register says that a register could not be read. -/
def Registers.ReportRegisters (registers : Registers) : Prop :=
  ∀ name e, registers name = .error e → ∃ register reason, e = .register register reason

theorem bind_eq_error_iff {α β : Type} {x : Except AccessError α} {f : α → Except AccessError β}
    {e : AccessError} : x >>= f = .error e ↔ x = .error e ∨ ∃ a, x = .ok a ∧ f a = .error e := by
  cases x <;> simp [bind, Except.bind]

namespace ProcessImage

variable {p : ProcessImage} {width : Nat}

theorem word_ne_pointerWidth (h : isWordWidth width = true) (addr : Addr) (w : Nat) :
    p.word addr width ≠ .error (.pointerWidth w) := by
  simp only [word, h, if_true]
  split
  · simp
  · split <;> simp

theorem not_failsWith_pointerWidth (h : isWordWidth width = true) (w : Nat) :
    ¬ p.memory.FailsWith width (.pointerWidth w) := by
  rintro ⟨addr, he⟩
  exact word_ne_pointerWidth h addr w he

theorem refuses_of_unsupported (h : isWordWidth width = false) : p.memory.Refuses width :=
  fun addr => ⟨_, p.word_of_unsupported h addr⟩

end ProcessImage

namespace Registry

variable {r : Registry} {e : AccessError}

theorem context?_of_refused (h : r.target.memory.Refuses r.pointerWidth) : r.context? = none := by
  cases hs : r.target.symbols.find r.layout.rootSymbol with
  | none => exact (no_context_of_no_symbol hs).1
  | some symbol => exact (no_context_of_word hs (.inl (h symbol))).1

theorem value_scan_of_refused (h : r.target.memory.Refuses r.pointerWidth) (pc : Addr) :
    (r.chain.scan pc).run.value = .ok none := by
  have hhead : r.chain.head.run.value = .ok none := value_head_of_no_context (context?_of_refused h)
  simp [FunctionChain.value_scan, hhead]

theorem failsWith_of_head (h : r.head.run.value = .error e) : r.target.memory.FailsWith r.pointerWidth e := by
  rw [value_head, value_context_eq] at h
  obtain hcontext | ⟨context?, -, h⟩ := bind_eq_error_iff.1 h
  · cases hcontext
  cases context? with
  | none => cases h
  | some context =>
    obtain hhead | ⟨head, -, h⟩ := bind_eq_error_iff.1 h
    · exact ⟨_, hhead⟩
    · cases h

theorem failsWith_of_node {addr : Addr} (h : (r.node addr).run.value = .error e) :
    r.target.memory.FailsWith r.pointerWidth e := by
  rw [value_node] at h
  obtain hentry | ⟨entryPoint, -, h⟩ := bind_eq_error_iff.1 h
  · exact ⟨_, hentry⟩
  obtain hend | ⟨codeEnd, -, h⟩ := bind_eq_error_iff.1 h
  · exact ⟨_, hend⟩
  obtain hnext | ⟨next, -, h⟩ := bind_eq_error_iff.1 h
  · exact ⟨_, hnext⟩
  · cases h

theorem failsWith_of_scan {pc : Addr} (h : (r.chain.scan pc).run.value = .error (.failed e)) :
    r.target.memory.FailsWith r.pointerWidth e := by
  obtain ⟨k, -, ⟨-, hhead⟩ | ⟨addr, -, hnode⟩⟩ := FunctionChain.value_scan_eq_failed_iff.1 h
  · exact failsWith_of_head hhead
  · exact failsWith_of_node hnode

end Registry

namespace Unwinder

variable {u : Unwinder} {target : Target} {registers : Registers} {e : AccessError}

theorem error_source (h : u.answer (u.registry target).chain target.memory registers = .error (.failed e)) :
    u.frameOf registers = .error e ∨ target.memory.FailsWith u.convention.pointerWidth e := by
  have henabled : u.enabled = true := by
    cases hu : u.enabled with
    | true => rfl
    | false => simp [answer, hu] at h
  obtain hunmatched | ⟨fp, range, e', he, hmatched⟩ := (answer_eq_error_iff henabled).1 h
  · obtain ⟨e', hframe, he⟩ | ⟨pc, fp, -, hscan⟩ := haltsUnmatched_iff.1 hunmatched
    · cases he
      exact .inl hframe
    · exact .inr ((u.registry target).failsWith_of_scan hscan)
  · cases he
    obtain hfirst | ⟨_, -, hsecond⟩ := savedCaller_eq_error_iff.1 (haltsMatched_iff.1 hmatched).2
    · exact .inr ⟨_, hfirst⟩
    · exact .inr ⟨_, hsecond⟩

theorem register_of_frameOf (hregisters : registers.ReportRegisters) (h : u.frameOf registers = .error e) :
    ∃ register reason, e = .register register reason := by
  obtain hpc | ⟨_, -, hfp⟩ := frameOf_eq_error_iff.1 h
  · exact hregisters _ e hpc
  · exact hregisters _ e hfp

theorem exists_frameOf_snapshot (u : Unwinder) (pc fp : Addr) :
    ∃ frame, u.frameOf (u.snapshot pc fp).registers = .ok frame := by
  cases hf : u.frameOf (u.snapshot pc fp).registers with
  | ok frame => exact ⟨frame, rfl⟩
  | error e =>
    exfalso
    obtain hpc | ⟨_, -, hfp⟩ := frameOf_eq_error_iff.1 hf
    · simp [snapshot, RegisterSnapshot.registers] at hpc
    · simp only [snapshot, RegisterSnapshot.registers] at hfp
      split at hfp <;> simp at hfp

theorem failsWith_of_unwindAt {f : FrameIdentity} {s : Session}
    (h : ((u.unwindAt target f).on s).value.1 = .error (.failed e)) :
    target.memory.FailsWith u.convention.pointerWidth e := by
  rw [value_unwindAt] at h
  obtain hframe | hword := error_source h
  · obtain ⟨frame, hf⟩ := u.exists_frameOf_snapshot f.programCounter f.stackPointer
    rw [hf] at hframe
    cases hframe
  · exact hword

theorem failsWith_of_walkFrom {limit : Nat} {f : FrameIdentity} {s : Session}
    (h : (u.walkFrom target limit f s).1 = .error (.failed e)) :
    target.memory.FailsWith u.convention.pointerWidth e := by
  induction limit generalizing f s with
  | zero =>
    rw [walkFrom_zero] at h
    cases h
  | succ limit ih =>
    rw [walkFrom_succ] at h
    rcases hu : ((u.unwindAt target f).on s).value with ⟨halt | _ | caller, t⟩ <;> rw [hu] at h
    · cases h
      exact failsWith_of_unwindAt (congrArg Prod.fst hu)
    · cases h
    · by_cases hz : caller.id.stackPointer = 0
      · simp [hz] at h
      · simp only [hz, if_false] at h
        apply ih (f := caller.id) (s := t)
        rcases hw : u.walkFrom target limit caller.id t with ⟨halt | callers, r⟩ <;> rw [hw] at h
        · exact h
        · cases h

/-- Without words a step gets no further than the registers. -/
theorem value_unwind_of_refused (h : target.memory.Refuses u.convention.pointerWidth) (registers : Registers)
    (s : Session) : ((u.unwind target registers).on s).value =
      (if u.enabled then Halt.ofAnswer ((u.frameOf registers).map fun _ => none) else .ok none, s) := by
  have hscan := (u.registry target).value_scan_of_refused h
  rw [unwind, value_unwindWith, answer, binding]
  cases u.enabled with
  | false => rfl
  | true =>
    obtain e | ⟨pc, fp⟩ := u.frameOf registers
    · rfl
    · simp [FunctionChain.binding, hscan pc, Except.map]

theorem unwind_of_refused (h : target.memory.Refuses u.convention.pointerWidth) (registers : Registers)
    (s : Session) :
    let answer := ((u.unwind target registers).on s).value.1
    (answer = .ok none ↔ u.enabled = false ∨ ∃ frame, u.frameOf registers = .ok frame) ∧
    (answer = .ok none ∨ ∃ e, u.frameOf registers = .error e ∧ answer = .error (.failed e)) := by
  intro answer
  have hanswer : answer = _ := congrArg Prod.fst (value_unwind_of_refused h registers s)
  rw [hanswer]
  cases u.enabled with
  | false => simp
  | true => cases u.frameOf registers <;> simp [Except.map]

theorem walkFrom_of_refused (h : target.memory.Refuses u.convention.pointerWidth) (limit : Nat)
    (f : FrameIdentity) (s : Session) : u.walkFrom target limit f s = (.ok [], s) := by
  cases limit with
  | zero => exact walkFrom_zero f s
  | succ limit =>
    obtain ⟨frame, hf⟩ := u.exists_frameOf_snapshot f.programCounter f.stackPointer
    have hu : ((u.unwindAt target f).on s).value = (.ok none, s) := by
      rw [unwindAt, value_unwind_of_refused h, hf]
      simp [Except.map]
    rw [walkFrom_succ, hu]

theorem unwind_ne_pointerWidth (hregisters : registers.ReportRegisters) (p : ProcessImage) (s : Session) (w : Nat) :
    ((u.unwind p.target registers).on s).value.1 ≠ .error (.failed (.pointerWidth w)) := by
  intro h
  -- Without the width there are no words to report it, and with it none does: only a register is left.
  have hframe : u.frameOf registers = .error (.pointerWidth w) := by
    cases hw : isWordWidth u.convention.pointerWidth with
    | true =>
      obtain hframe | hword := error_source ((u.fst_unwindWith _ _ registers s).symm.trans h)
      · exact hframe
      · exact absurd hword (ProcessImage.not_failsWith_pointerWidth hw w)
    | false =>
      have hrefuses : p.target.memory.Refuses u.convention.pointerWidth :=
        ProcessImage.refuses_of_unsupported hw
      obtain hnone | ⟨e, hframe, he⟩ := (unwind_of_refused hrefuses registers s).2
      · rw [hnone] at h
        cases h
      · rw [he] at h
        cases h
        exact hframe
  obtain ⟨register, reason, he⟩ := register_of_frameOf hregisters hframe
  cases he

theorem walkFrom_ne_pointerWidth (p : ProcessImage) (limit : Nat) (f : FrameIdentity) (s : Session) (w : Nat) :
    (u.walkFrom p.target limit f s).1 ≠ .error (.failed (.pointerWidth w)) := by
  intro h
  cases hw : isWordWidth u.convention.pointerWidth with
  | true => exact ProcessImage.not_failsWith_pointerWidth hw w (failsWith_of_walkFrom h)
  | false =>
    have hrefuses : p.target.memory.Refuses u.convention.pointerWidth := ProcessImage.refuses_of_unsupported hw
    rw [walkFrom_of_refused hrefuses] at h
    cases h

/-- Behind a match the first saved word reports its error, and the frame pointer is bound. -/
theorem unwindWith_of_savedFp {chain : FunctionChain} {memory : Memory} {fp : Addr} {range : CodeRange}
    (h : u.Classifies chain registers fp range)
    (hw : memory.word (fp.offset u.convention.savedFpOffset) u.convention.pointerWidth = .error e) (s : Session) :
    let result := ((u.unwindWith chain memory registers).on s).value
    result.1 = .error (.failed e) ∧ s.DiffersAt result.2 fp range := by
  intro result
  have hmatched : u.HaltsMatched chain memory registers fp range e := .savedFp h hw
  have hanswer := (answer_eq_error_iff h.1).2 (.inr ⟨fp, range, e, rfl, hmatched⟩)
  exact ⟨(u.fst_unwindWith chain memory registers s).trans hanswer, differsAt_of_classifies h memory s⟩

/-- Where the width cannot be read, a step declines or a register is at fault, and a walk finds no callers. With
a list of its own a step reports the first saved word. -/
theorem unsupported_width_declines (u : Unwinder) (s : Session) :
    let width := u.convention.pointerWidth
    (∀ target : Target, target.memory.Refuses width →
      (∀ pc key, (((u.registry target).chain.resolve pc key).on s).value = (.ok none, s)) ∧
      (∀ registers : Registers, registers.ReportRegisters →
        let result := ((u.unwind target registers).on s).value
        result.2 = s ∧
        (result.1 = .ok none ∨ ∃ name reason, result.1 = .error (.failed (.register name reason))) ∧
        (result.1 = .ok none ↔ u.enabled = false ∨ ∃ frame, u.frameOf registers = .ok frame)) ∧
      ∀ start limit, u.walkFrom target limit start s = (.ok [], s)) ∧
    (∀ p : ProcessImage,
      (isWordWidth width = false → ∀ addr, p.memory.word addr width = .error (.pointerWidth width)) ∧
      (isWordWidth width = true → ∀ addr w, p.memory.word addr width ≠ .error (.pointerWidth w)) ∧
      ∀ w, (∀ registers : Registers, registers.ReportRegisters →
          ((u.unwind p.target registers).on s).value.1 ≠ .error (.failed (.pointerWidth w))) ∧
        ∀ start limit, (u.walkFrom p.target limit start s).1 ≠ .error (.failed (.pointerWidth w))) ∧
    (∀ chain memory registers fp range e, u.Classifies chain registers fp range →
      memory.word (fp.offset u.convention.savedFpOffset) width = .error e →
      let result := ((u.unwindWith chain memory registers).on s).value
      result.1 = .error (.failed e) ∧ s.DiffersAt result.2 fp range) ∧
    ∀ chain (p : ProcessImage) registers fp range, u.Classifies chain registers fp range →
      isWordWidth width = false →
      let result := ((u.unwindWith chain p.memory registers).on s).value
      result.1 = .error (.failed (.pointerWidth width)) ∧ s.DiffersAt result.2 fp range := by
  intro width
  refine ⟨?_, ?_, ?_, ?_⟩
  · intro target hrefuses
    refine ⟨?_, ?_, fun start limit => walkFrom_of_refused hrefuses limit start s⟩
    · intro pc key
      rw [FunctionChain.value_resolve, (u.registry target).value_scan_of_refused hrefuses]
    · intro registers hregisters result
      have hsession : result.2 = s := congrArg Prod.snd (value_unwind_of_refused hrefuses registers s)
      obtain ⟨hdeclines, hanswer⟩ := unwind_of_refused hrefuses registers s
      refine ⟨hsession, ?_, hdeclines⟩
      obtain hnone | ⟨e, hframe, he⟩ := hanswer
      · exact .inl hnone
      · obtain ⟨name, reason, rfl⟩ := register_of_frameOf hregisters hframe
        exact .inr ⟨name, reason, he⟩
  · intro p
    refine ⟨p.word_of_unsupported, ProcessImage.word_ne_pointerWidth, fun w => ⟨?_, ?_⟩⟩
    · intro registers hregisters
      exact unwind_ne_pointerWidth hregisters p s w
    · intro start limit
      exact walkFrom_ne_pointerWidth p limit start s w
  · intro chain memory registers fp range e hclassifies hw
    exact unwindWith_of_savedFp hclassifies hw s
  · intro chain p registers fp range hclassifies hwidth
    exact unwindWith_of_savedFp hclassifies (p.word_of_unsupported hwidth _) s

end Unwinder
end JitFrames
