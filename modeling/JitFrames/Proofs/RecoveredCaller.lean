import JitFrames.Proofs.UnwindStep

/-! The caller that one unwind step recovers. The two words saved at the convention's distances from the frame
pointer identify it and are its registers; no other register of the frame has a part in it. -/
namespace JitFrames.Unwinder

def HasFrame (u : Unwinder) (registers : Registers) (pc fp : Addr) : Prop :=
  registers u.convention.pcRegister = .ok pc ∧ registers u.convention.fpRegister = .ok fp

/-- The word at a distance from the frame pointer. Distances wrap around at the end of the address space. -/
def SavesAt (u : Unwinder) (memory : Memory) (fp : Addr) (distance word : UInt64) : Prop :=
  ∃ slot : Addr, slot.toNat = (fp.toNat + distance.toNat) % UInt64.size ∧
    memory.word slot u.convention.pointerWidth = .ok word

variable {u : Unwinder} {chain : FunctionChain} {memory : Memory} {registers : Registers} {s : Session}

theorem savesAt_iff {fp : Addr} {distance word : UInt64} :
    u.SavesAt memory fp distance word ↔
      memory.word (fp.offset distance) u.convention.pointerWidth = .ok word := by
  constructor
  · rintro ⟨slot, hslot, hword⟩
    have hs : slot = fp.offset distance := UInt64.toNat_inj.1 (by rw [hslot, Addr.toNat_offset])
    rw [← hs]
    exact hword
  · intro hword
    exact ⟨fp.offset distance, Addr.toNat_offset fp distance, hword⟩

theorem saved_callerState (u : Unwinder) (callerPc callerFp : Addr) :
    (u.callerState callerPc callerFp).saved =
      if u.convention.pcRegister = u.convention.fpRegister then [(u.convention.fpRegister, callerFp)]
      else [(u.convention.pcRegister, callerPc), (u.convention.fpRegister, callerFp)] := by
  by_cases h : u.convention.pcRegister = u.convention.fpRegister
  · simp [callerState, CallerState.save, saveRegister, h]
  · simp [callerState, CallerState.save, saveRegister, h]

theorem unwindWith_congr {registers' : Registers}
    (hpc : registers' u.convention.pcRegister = registers u.convention.pcRegister)
    (hfp : registers' u.convention.fpRegister = registers u.convention.fpRegister) :
    u.unwindWith chain memory registers' = u.unwindWith chain memory registers := by
  simp only [unwindWith, Registers.read, hpc, hfp]

theorem answer_eq_some_iff_savesAt (henabled : u.enabled = true) {caller : CallerState} :
    u.answer chain memory registers = .ok (some caller) ↔ ∃ pc fp range sp ra, u.HasFrame registers pc fp ∧
      (chain.scan pc).run.value = .ok (some range) ∧ u.SavesAt memory fp u.convention.savedFpOffset sp ∧
      u.SavesAt memory fp u.convention.savedPcOffset ra ∧ caller = u.callerState ra sp := by
  rw [answer_eq_some_iff]
  simp only [henabled, true_and, frameOf_eq_ok_iff, savedCaller_eq_ok_iff, savesAt_iff,
    FunctionChain.value_scan_eq_match_iff, HasFrame]
  constructor
  · rintro ⟨pc, fp, range, hframe, hmatch, sp, ra, hsp, hra, hcaller⟩
    exact ⟨pc, fp, range, sp, ra, hframe, hmatch, hsp, hra, hcaller⟩
  · rintro ⟨pc, fp, range, sp, ra, hframe, hmatch, hsp, hra, hcaller⟩
    exact ⟨pc, fp, range, hframe, hmatch, sp, ra, hsp, hra, hcaller⟩

/-- An enabled unwinder recovers a caller exactly if both registers, the function and both saved words are
there, and declines exactly if the registers are and the function is not. -/
theorem recovers_caller_iff (u : Unwinder) (chain : FunctionChain) (memory : Memory) (registers : Registers)
    (s : Session) :
    let conv := u.convention
    let answer := ((u.unwindWith chain memory registers).on s).value.1
    (u.enabled = true →
      ((∃ caller, answer = .ok (some caller)) ↔ ∃ pc fp range sp ra, u.HasFrame registers pc fp ∧
        ((chain.resolve pc fp).on s).value.1 = .ok (some range) ∧
        u.SavesAt memory fp conv.savedFpOffset sp ∧ u.SavesAt memory fp conv.savedPcOffset ra) ∧
      (∀ caller, answer = .ok (some caller) → ∃ pc fp, u.HasFrame registers pc fp ∧
        u.SavesAt memory fp conv.savedFpOffset caller.id.stackPointer ∧
        u.SavesAt memory fp conv.savedPcOffset caller.id.programCounter ∧
        (conv.pcRegister ≠ conv.fpRegister → caller.saved =
          [(conv.pcRegister, caller.id.programCounter), (conv.fpRegister, caller.id.stackPointer)]) ∧
        (conv.pcRegister = conv.fpRegister → caller.saved = [(conv.fpRegister, caller.id.stackPointer)])) ∧
      (answer = .ok none ↔ ∃ pc fp, u.HasFrame registers pc fp ∧
        ((chain.resolve pc fp).on s).value.1 = .ok none)) ∧
    (u.enabled = false → answer = .ok none) ∧
    ∀ registers' : Registers, registers' conv.pcRegister = registers conv.pcRegister →
      registers' conv.fpRegister = registers conv.fpRegister →
      (u.unwindWith chain memory registers').on s = (u.unwindWith chain memory registers).on s := by
  dsimp only
  simp only [fst_unwindWith, FunctionChain.fst_resolve]
  refine ⟨fun henabled => ⟨?_, fun caller hcaller => ?_, ?_⟩, fun hdisabled => ?_, fun registers' hpc hfp => ?_⟩
  · simp only [answer_eq_some_iff_savesAt henabled]
    constructor
    · rintro ⟨caller, pc, fp, range, sp, ra, hframe, hmatch, hsp, hra, -⟩
      exact ⟨pc, fp, range, sp, ra, hframe, hmatch, hsp, hra⟩
    · rintro ⟨pc, fp, range, sp, ra, hframe, hmatch, hsp, hra⟩
      exact ⟨_, pc, fp, range, sp, ra, hframe, hmatch, hsp, hra, rfl⟩
  · obtain ⟨pc, fp, range, sp, ra, hframe, -, hsp, hra, rfl⟩ := (answer_eq_some_iff_savesAt henabled).1 hcaller
    refine ⟨pc, fp, hframe, hsp, hra, fun hne => ?_, fun heq => ?_⟩
    · exact (u.saved_callerState ra sp).trans (if_neg hne)
    · exact (u.saved_callerState ra sp).trans (if_pos heq)
  · rw [answer_eq_none_iff]
    simp [henabled, frameOf_eq_ok_iff, HasFrame]
  · exact answer_eq_none_iff.2 (.inl hdisabled)
  · rw [unwindWith_congr hpc hfp]

end JitFrames.Unwinder
