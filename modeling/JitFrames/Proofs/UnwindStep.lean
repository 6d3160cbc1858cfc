import JitFrames.Proofs.FirstMatch
import JitFrames.Unwinder

/-! What one unwind step does. Its answer comes from the frame, the function list and the memory alone; to the
session it does at most one thing, before the saved words are read: it binds the frame pointer. -/
namespace JitFrames

/-- The session with one binding more, if there is one. -/
def Session.record (s : Session) : Option (Addr × CodeRange) → Session
  | none => s
  | some (key, range) => { s with cache := s.cache.insert key range }

@[simp] theorem Session.record_none (s : Session) : s.record none = s := rfl

@[simp] theorem Session.epoch_record (s : Session) (b : Option (Addr × CodeRange)) :
    (s.record b).epoch = s.epoch := by
  rcases b with _ | ⟨key, range⟩ <;> rfl

theorem Session.lookup_record_some (s : Session) (key k : Addr) (range : CodeRange) :
    (s.record (some (key, range))).cache.lookup k = if key = k then some range else s.cache.lookup k :=
  s.cache.lookup_insert key k range

namespace FunctionChain

/-- The binding that a search for `pc` leaves behind. -/
def binding (chain : FunctionChain) (pc key : Addr) : Option (Addr × CodeRange) :=
  match (chain.scan pc).run.value with
  | .ok (some range) => some (key, range)
  | _ => none

theorem value_resolve_eq (chain : FunctionChain) (pc key : Addr) (s : Session) :
    ((chain.resolve pc key).on s).value = ((chain.scan pc).run.value, s.record (chain.binding pc key)) := by
  rw [value_resolve, binding]
  rcases (chain.scan pc).run.value with e | _ | range <;> rfl

theorem binding_eq_some_iff {chain : FunctionChain} {pc key k : Addr} {range : CodeRange} :
    chain.binding pc key = some (k, range) ↔ k = key ∧ chain.FirstMatch pc range := by
  rw [← value_scan_eq_match_iff, binding]
  rcases (chain.scan pc).run.value with e | _ | r <;> simp [eq_comm]

end FunctionChain

namespace Unwinder

/-- What is known of the caller once the two saved words have been read. -/
def callerState (u : Unwinder) (callerPc callerFp : Addr) : CallerState :=
  let caller : CallerState := { id := { stackPointer := callerFp, programCounter := callerPc } }
  (caller.save u.convention.pcRegister callerPc).save u.convention.fpRegister callerFp

def savedCaller (u : Unwinder) (memory : Memory) (fp : Addr) : Except AccessError CallerState := do
  let callerFp ← memory.word (fp.offset u.convention.savedFpOffset) u.convention.pointerWidth
  let callerPc ← memory.word (fp.offset u.convention.savedPcOffset) u.convention.pointerWidth
  return u.callerState callerPc callerFp

def frameOf (u : Unwinder) (registers : Registers) : Except AccessError (Addr × Addr) := do
  let pc ← registers u.convention.pcRegister
  let fp ← registers u.convention.fpRegister
  return (pc, fp)

def answer (u : Unwinder) (chain : FunctionChain) (memory : Memory) (registers : Registers) :
    Except Halt (Option CallerState) :=
  if u.enabled then
    match u.frameOf registers with
    | .error e => .error (.failed e)
    | .ok (pc, fp) =>
      match (chain.scan pc).run.value with
      | .error h => .error h
      | .ok none => .ok none
      | .ok (some _) => Halt.ofAnswer ((u.savedCaller memory fp).map some)
  else .ok none

def binding (u : Unwinder) (chain : FunctionChain) (registers : Registers) : Option (Addr × CodeRange) :=
  if u.enabled then
    match u.frameOf registers with
    | .ok (pc, fp) => chain.binding pc fp
    | .error _ => none
  else none

theorem value_unwindWith (u : Unwinder) (chain : FunctionChain) (memory : Memory) (registers : Registers)
    (s : Session) : ((u.unwindWith chain memory registers).on s).value =
      (u.answer chain memory registers, s.record (u.binding chain registers)) := by
  rw [unwindWith, Step.value_traced_bind]
  cases he : u.enabled with
  | false => simp [answer, binding, he]
  | true =>
    simp only [answer, binding, he, frameOf, Bool.not_true, Bool.false_eq_true, if_false, if_true,
      Step.value_query_bind, Registers.value_read]
    cases registers u.convention.pcRegister with
    | error e => rfl
    | ok pc =>
      cases registers u.convention.fpRegister with
      | error e => rfl
      | ok fp =>
        dsimp only
        rw [Step.value_traced_bind, Step.value_bind, FunctionChain.value_resolve_eq]
        show _ = (match (chain.scan pc).run.value with
          | .error h => Except.error h
          | .ok none => Except.ok none
          | .ok (some _) => Halt.ofAnswer ((u.savedCaller memory fp).map some), s.record (chain.binding pc fp))
        rcases (chain.scan pc).run.value with h | _ | range
        · rfl
        · rfl
        · simp only [Step.value_query_bind, Memory.value_read]
          show _ = (Halt.ofAnswer ((u.savedCaller memory fp).map some), _)
          rw [savedCaller]
          cases memory.word (Addr.offset fp u.convention.savedFpOffset) u.convention.pointerWidth with
          | error e => rfl
          | ok callerFp =>
            cases memory.word (Addr.offset fp u.convention.savedPcOffset) u.convention.pointerWidth with
            | error e => rfl
            | ok callerPc => rfl

/-- The frame can be read, has this frame pointer, and its function is found. -/
def Classifies (u : Unwinder) (chain : FunctionChain) (registers : Registers) (key : Addr)
    (range : CodeRange) : Prop :=
  u.enabled = true ∧ ∃ pc, u.frameOf registers = .ok (pc, key) ∧ chain.FirstMatch pc range

variable {u : Unwinder} {chain : FunctionChain} {memory : Memory} {registers : Registers}

theorem frameOf_eq_ok_iff {pc fp : Addr} : u.frameOf registers = .ok (pc, fp) ↔
    registers u.convention.pcRegister = .ok pc ∧ registers u.convention.fpRegister = .ok fp := by
  unfold frameOf
  cases registers u.convention.pcRegister with
  | error e => simp [bind, Except.bind]
  | ok p =>
    cases registers u.convention.fpRegister <;> simp [bind, Except.bind, pure, Except.pure]

theorem savedCaller_eq_ok_iff {fp : Addr} {caller : CallerState} :
    u.savedCaller memory fp = .ok caller ↔ ∃ callerFp callerPc,
      memory.word (fp.offset u.convention.savedFpOffset) u.convention.pointerWidth = .ok callerFp ∧
      memory.word (fp.offset u.convention.savedPcOffset) u.convention.pointerWidth = .ok callerPc ∧
      caller = u.callerState callerPc callerFp := by
  unfold savedCaller
  cases memory.word (fp.offset u.convention.savedFpOffset) u.convention.pointerWidth with
  | error e => simp [bind, Except.bind]
  | ok callerFp =>
    cases memory.word (fp.offset u.convention.savedPcOffset) u.convention.pointerWidth with
    | error e => simp [bind, Except.bind]
    | ok callerPc => simp [bind, Except.bind, pure, Except.pure, eq_comm]

theorem binding_eq_some_iff {key : Addr} {range : CodeRange} :
    u.binding chain registers = some (key, range) ↔ u.Classifies chain registers key range := by
  unfold binding Classifies
  cases u.enabled with
  | false => simp
  | true =>
    rcases hf : u.frameOf registers with e | ⟨pc, fp⟩
    · simp
    · simp only [if_true, FunctionChain.binding_eq_some_iff, true_and]
      constructor
      · rintro ⟨rfl, hs⟩
        exact ⟨pc, rfl, hs⟩
      · rintro ⟨pc', he, hs⟩
        cases he
        exact ⟨rfl, hs⟩

theorem fst_unwindWith (u : Unwinder) (chain : FunctionChain) (memory : Memory) (registers : Registers)
    (s : Session) : ((u.unwindWith chain memory registers).on s).value.1 = u.answer chain memory registers :=
  congrArg Prod.fst (u.value_unwindWith chain memory registers s)

/-- A step that classifies its frame leaves the binding, whatever its answer is. -/
theorem Classifies.snd_unwindWith {key : Addr} {range : CodeRange} (h : u.Classifies chain registers key range)
    (memory : Memory) (s : Session) :
    ((u.unwindWith chain memory registers).on s).value.2 = s.record (some (key, range)) := by
  rw [value_unwindWith, binding_eq_some_iff.2 h]

/-- A caller is found exactly where the frame can be read, its function is listed and the saved words can
be read. -/
theorem answer_eq_some_iff {caller : CallerState} :
    u.answer chain memory registers = .ok (some caller) ↔ u.enabled = true ∧
      ∃ pc fp range, u.frameOf registers = .ok (pc, fp) ∧ chain.FirstMatch pc range ∧
        u.savedCaller memory fp = .ok caller := by
  simp only [← FunctionChain.value_scan_eq_match_iff]
  unfold answer
  cases u.enabled with
  | false => simp
  | true =>
    rcases hf : u.frameOf registers with e | ⟨pc, fp⟩
    · simp
    · constructor
      · intro h
        rcases hs : (chain.scan pc).run.value with e | _ | range
        · simp [hs] at h
        · simp [hs] at h
        · cases hc : u.savedCaller memory fp with
          | error e => simp [hs, hc, Except.map] at h
          | ok c =>
            obtain rfl : c = caller := by simpa [hs, hc, Except.map] using h
            exact ⟨rfl, pc, fp, range, rfl, hs, hc⟩
      · rintro ⟨-, pc', fp', range, he, hs, hc⟩
        cases he
        simp [hs, hc, Except.map]

theorem answer_eq_none_iff :
    u.answer chain memory registers = .ok none ↔ u.enabled = false ∨
      ∃ pc fp, u.frameOf registers = .ok (pc, fp) ∧ (chain.scan pc).run.value = .ok none := by
  unfold answer
  cases u.enabled with
  | false => simp
  | true =>
    rcases hf : u.frameOf registers with e | ⟨pc, fp⟩
    · simp
    · rcases hs : (chain.scan pc).run.value with h | _ | range
      · simp [hs]
      · simp [hs]
      · cases hc : u.savedCaller memory fp <;> simp [hs, hc, Except.map]

theorem binding_of_answer_none (h : u.answer chain memory registers = .ok none) :
    u.binding chain registers = none := by
  unfold binding
  rcases answer_eq_none_iff.1 h with he | ⟨pc, fp, hf, hs⟩
  · simp [he]
  · simp [hf, FunctionChain.binding, hs]

theorem saved?_callerState (callerPc callerFp : Addr)
    (h : u.convention.pcRegister ≠ u.convention.fpRegister) :
    (u.callerState callerPc callerFp).saved? u.convention.pcRegister = some callerPc ∧
      (u.callerState callerPc callerFp).saved? u.convention.fpRegister = some callerFp := by
  simp [callerState, CallerState.saved?_save, h.symm]

end Unwinder
end JitFrames
