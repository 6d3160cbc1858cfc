import JitFrames.Proofs.SessionIndependence

/-! What an unwind step leaves behind that recovers no caller. A step binds the frame pointer as soon as it has
found the function, so it matters whether it halts before or behind that point. -/
namespace JitFrames

/-- The second session has this range under the key, and else is as the first. -/
def Session.DiffersAt (s t : Session) (key : Addr) (range : CodeRange) : Prop :=
  t.epoch = s.epoch ∧ ∀ k, t.cache.lookup k = if k = key then some range else s.cache.lookup k

theorem Session.differsAt_record (s : Session) (key : Addr) (range : CodeRange) :
    s.DiffersAt (s.record (some (key, range))) key range := by
  refine ⟨s.epoch_record _, fun k => ?_⟩
  rw [lookup_record_some]
  simp only [eq_comm]

namespace Unwinder

/-- Where a step halts before a function is found: at a register, at the head, at the first node that is not
passed, or in a list without an end. -/
inductive HaltsUnmatched (u : Unwinder) (chain : FunctionChain) (registers : Registers) : Halt → Prop
  | pcRegister {e : AccessError} (pc : registers u.convention.pcRegister = .error e) :
      HaltsUnmatched u chain registers (.failed e)
  | fpRegister {p : Addr} {e : AccessError} (pc : registers u.convention.pcRegister = .ok p)
      (fp : registers u.convention.fpRegister = .error e) : HaltsUnmatched u chain registers (.failed e)
  | list {p f : Addr} {k : Nat} {e : AccessError} (pc : registers u.convention.pcRegister = .ok p)
      (fp : registers u.convention.fpRegister = .ok f) (passed : ∀ j < k, chain.PassesAt p j)
      (fails : chain.FailsAt k e) : HaltsUnmatched u chain registers (.failed e)
  | endless {p f : Addr} (pc : registers u.convention.pcRegister = .ok p)
      (fp : registers u.convention.fpRegister = .ok f) (passed : ∀ k, chain.PassesAt p k) :
      HaltsUnmatched u chain registers .endless

/-- Where a step halts with the function found: at one of the two saved words. -/
inductive HaltsMatched (u : Unwinder) (chain : FunctionChain) (memory : Memory) (registers : Registers)
    (fp : Addr) (range : CodeRange) : AccessError → Prop
  | savedFp {e : AccessError} (classified : u.Classifies chain registers fp range)
      (word : memory.word (fp.offset u.convention.savedFpOffset) u.convention.pointerWidth = .error e) :
      HaltsMatched u chain memory registers fp range e
  | savedPc {w : UInt64} {e : AccessError} (classified : u.Classifies chain registers fp range)
      (first : memory.word (fp.offset u.convention.savedFpOffset) u.convention.pointerWidth = .ok w)
      (word : memory.word (fp.offset u.convention.savedPcOffset) u.convention.pointerWidth = .error e) :
      HaltsMatched u chain memory registers fp range e

variable {u : Unwinder} {chain : FunctionChain} {memory : Memory} {registers : Registers}

theorem frameOf_eq_error_iff {e : AccessError} : u.frameOf registers = .error e ↔
    registers u.convention.pcRegister = .error e ∨
      ∃ pc, registers u.convention.pcRegister = .ok pc ∧ registers u.convention.fpRegister = .error e := by
  unfold frameOf
  cases registers u.convention.pcRegister with
  | error e' => simp [bind, Except.bind]
  | ok pc => cases registers u.convention.fpRegister <;> simp [bind, Except.bind, pure, Except.pure]

theorem savedCaller_eq_error_iff {fp : Addr} {e : AccessError} : u.savedCaller memory fp = .error e ↔
    memory.word (fp.offset u.convention.savedFpOffset) u.convention.pointerWidth = .error e ∨
      ∃ w, memory.word (fp.offset u.convention.savedFpOffset) u.convention.pointerWidth = .ok w ∧
        memory.word (fp.offset u.convention.savedPcOffset) u.convention.pointerWidth = .error e := by
  unfold savedCaller
  cases memory.word (fp.offset u.convention.savedFpOffset) u.convention.pointerWidth with
  | error e' => simp [bind, Except.bind]
  | ok w =>
    cases memory.word (fp.offset u.convention.savedPcOffset) u.convention.pointerWidth <;>
      simp [bind, Except.bind, pure, Except.pure]

theorem haltsUnmatched_iff {h : Halt} : u.HaltsUnmatched chain registers h ↔
    (∃ e, u.frameOf registers = .error e ∧ h = .failed e) ∨
      ∃ pc fp, u.frameOf registers = .ok (pc, fp) ∧ (chain.scan pc).run.value = .error h := by
  simp only [frameOf_eq_error_iff, frameOf_eq_ok_iff]
  constructor
  · intro hh
    cases hh with
    | pcRegister hpc => exact .inl ⟨_, .inl hpc, rfl⟩
    | fpRegister hpc hfp => exact .inl ⟨_, .inr ⟨_, hpc, hfp⟩, rfl⟩
    | list hpc hfp hpassed hfails =>
      exact .inr ⟨_, _, ⟨hpc, hfp⟩, FunctionChain.value_scan_eq_failed_iff.2 ⟨_, hpassed, hfails⟩⟩
    | endless hpc hfp hpassed =>
      exact .inr ⟨_, _, ⟨hpc, hfp⟩, FunctionChain.value_scan_eq_endless_iff.2 hpassed⟩
  · rintro (⟨e, hpc | ⟨p, hpc, hfp⟩, rfl⟩ | ⟨p, f, ⟨hpc, hfp⟩, hs⟩)
    · exact .pcRegister hpc
    · exact .fpRegister hpc hfp
    · cases h with
      | failed e =>
        obtain ⟨k, hpassed, hfails⟩ := FunctionChain.value_scan_eq_failed_iff.1 hs
        exact .list hpc hfp hpassed hfails
      | endless => exact .endless hpc hfp (FunctionChain.value_scan_eq_endless_iff.1 hs)

theorem haltsMatched_iff {fp : Addr} {range : CodeRange} {e : AccessError} :
    u.HaltsMatched chain memory registers fp range e ↔
      u.Classifies chain registers fp range ∧ u.savedCaller memory fp = .error e := by
  rw [savedCaller_eq_error_iff]
  constructor
  · rintro (⟨hc, hw⟩ | ⟨hc, hfirst, hw⟩)
    · exact ⟨hc, .inl hw⟩
    · exact ⟨hc, .inr ⟨_, hfirst, hw⟩⟩
  · rintro ⟨hc, hw | ⟨w, hfirst, hw⟩⟩
    · exact .savedFp hc hw
    · exact .savedPc hc hfirst hw

theorem answer_eq_error_iff (henabled : u.enabled = true) {h : Halt} :
    u.answer chain memory registers = .error h ↔ u.HaltsUnmatched chain registers h ∨
      ∃ fp range e, h = .failed e ∧ u.HaltsMatched chain memory registers fp range e := by
  rw [haltsUnmatched_iff, answer, if_pos henabled]
  simp only [haltsMatched_iff, Classifies, henabled, true_and, ← FunctionChain.value_scan_eq_match_iff]
  rcases hf : u.frameOf registers with e | ⟨pc, fp⟩
  · simp [eq_comm]
  · rcases hs : (chain.scan pc).run.value with h' | _ | range
    · simp [hs]
    · simp [hs]
    · constructor
      · intro hanswer
        cases hc : u.savedCaller memory fp with
        | error e =>
          obtain rfl : .failed e = h := by simpa [hs, hc, Except.map] using hanswer
          exact .inr ⟨fp, range, e, rfl, ⟨pc, rfl, hs⟩, hc⟩
        | ok caller => simp [hs, hc, Except.map] at hanswer
      · rintro ((⟨e, he, -⟩ | ⟨pc', fp', he, hs'⟩) | ⟨fp', range', e, rfl, ⟨pc', he, -⟩, hc⟩)
        · cases he
        · cases he
          rw [hs] at hs'
          cases hs'
        · cases he
          simp [hs, hc, Except.map]

theorem binding_of_haltsUnmatched {h : Halt} (hh : u.HaltsUnmatched chain registers h) :
    u.binding chain registers = none := by
  rw [Option.eq_none_iff_forall_ne_some]
  rintro ⟨key, range⟩ hb
  obtain ⟨-, pc, hframe, hmatch⟩ := binding_eq_some_iff.1 hb
  rcases haltsUnmatched_iff.1 hh with ⟨e, he, -⟩ | ⟨pc', fp', hframe', hs⟩
  · rw [hframe] at he
    cases he
  · rw [hframe] at hframe'
    cases hframe'
    rw [FunctionChain.value_scan_eq_match_iff.2 hmatch] at hs
    cases hs

theorem differsAt_of_classifies {fp : Addr} {range : CodeRange} (h : u.Classifies chain registers fp range)
    (memory : Memory) (s : Session) :
    s.DiffersAt ((u.unwindWith chain memory registers).on s).value.2 fp range := by
  rw [h.snd_unwindWith memory s]
  exact s.differsAt_record fp range

theorem binding_eq_map {fp : Addr} (hkey : ∀ key, registers u.convention.fpRegister = .ok key → key = fp) :
    u.binding chain registers = ((u.binding chain registers).map (·.2)).map (fp, ·) := by
  rcases hb : u.binding chain registers with _ | ⟨key, range⟩
  · rfl
  · obtain ⟨-, pc, hframe, -⟩ := binding_eq_some_iff.1 hb
    obtain rfl : key = fp := hkey key (frameOf_eq_ok_iff.1 hframe).2
    rfl

end Unwinder

namespace Operation

/-- A step by this unwinder, switched on or off, on a frame that has this frame pointer if it can be read. The
list, the memory and the rest of the frame may be any. -/
def AttemptsAt (u : Unwinder) (fp : Addr) : Operation → Prop
  | .unwind v _ registers | .unwindWith v _ _ registers =>
    v.config = u.config ∧ ∀ key, registers v.convention.fpRegister = .ok key → key = fp
  | _ => False

variable {u v : Unwinder} {chain : FunctionChain} {registers : Registers} {fp : Addr} {op : Operation}

theorem exists_record_of_incidents (hincidents : op.incidents = (v.binding chain registers).toList.map .ofBinding)
    (hkey : ∀ key, registers v.convention.fpRegister = .ok key → key = fp)
    (hbinds : ∀ range, op.Binds fp range → v.Classifies chain registers fp range) :
    ∃ b : Option CodeRange, (∀ s : Session, s.perform op = s.record (b.map (fp, ·))) ∧
      ∀ range, op.Binds fp range → b = some range := by
  refine ⟨(v.binding chain registers).map (·.2), fun s => ?_, fun range hb => ?_⟩
  · rw [Session.perform_eq_replay, hincidents, Session.replay_binding, ← Unwinder.binding_eq_map hkey]
  · rw [Unwinder.binding_eq_some_iff.2 (hbinds range hb)]
    rfl

theorem AttemptsAt.exists_record (h : op.AttemptsAt u fp) :
    ∃ b : Option CodeRange, (∀ s : Session, s.perform op = s.record (b.map (fp, ·))) ∧
      ∀ range, op.Binds fp range → b = some range := by
  cases op with
  | unwind v target registers =>
    have hincidents : (unwind v target registers).incidents =
        (v.binding (v.registry target).chain registers).toList.map .ofBinding := rfl
    exact exists_record_of_incidents hincidents h.2 fun range hb => hb
  | unwindWith v chain memory registers =>
    have hincidents : (unwindWith v chain memory registers).incidents =
        (v.binding chain registers).toList.map .ofBinding := rfl
    exact exists_record_of_incidents hincidents h.2 fun range hb => hb
  | _ => exact h.elim

end Operation

namespace Session

variable {u : Unwinder} {fp : Addr} {op last : Operation} {ops : List Operation}

theorem perform_of_attempt (hop : op.AttemptsAt u fp) (hlast : last.AttemptsAt u fp)
    (hbinds : ∃ range, last.Binds fp range) (s : Session) : (s.perform op).perform last = s.perform last := by
  obtain ⟨range, hbinds⟩ := hbinds
  obtain ⟨b, hb, -⟩ := hop.exists_record
  obtain ⟨b', hb', hrange⟩ := hlast.exists_record
  obtain rfl := hrange range hbinds
  rw [hb, hb', hb']
  cases b with
  | none => rfl
  | some r => exact s.record_record_of_key fp r range

theorem perform_of_attempts (hops : ∀ op ∈ ops, op.AttemptsAt u fp) (hlast : last.AttemptsAt u fp)
    (hbinds : ∃ range, last.Binds fp range) (s : Session) :
    (ops.foldl perform s).perform last = s.perform last := by
  induction ops generalizing s with
  | nil => rfl
  | cons op ops ih =>
    have hop := hops op List.mem_cons_self
    have hrest := ih (fun op' h => hops op' (List.mem_cons_of_mem op h)) (s.perform op)
    rw [List.foldl_cons, hrest]
    exact perform_of_attempt hop hlast hbinds s

end Session

/-- A step that halts before the match leaves the session as it was, one that halts behind it leaves the
binding; and no attempts at a frame change what its classification leaves. -/
theorem Unwinder.failed_step_leaves (u : Unwinder) (chain : FunctionChain) (memory : Memory)
    (registers : Registers) (s : Session) :
    let result := ((u.unwindWith chain memory registers).on s).value
    (result.1 = .ok none → result.2 = s) ∧
    (u.enabled = true → ∀ h, result.1 = .error h ↔ u.HaltsUnmatched chain registers h ∨
      ∃ fp range e, h = .failed e ∧ u.HaltsMatched chain memory registers fp range e) ∧
    (∀ h, u.HaltsUnmatched chain registers h → result.2 = s) ∧
    (∀ fp range e, u.HaltsMatched chain memory registers fp range e →
      result.1 = .error (.failed e) ∧ s.DiffersAt result.2 fp range) ∧
    (∀ caller, result.1 = .ok (some caller) → ∃ fp range, u.Classifies chain registers fp range ∧
      s.DiffersAt result.2 fp range) ∧
    ∀ (fp : Addr) (attempts : List Operation) (last : Operation), (∀ op ∈ attempts, op.AttemptsAt u fp) →
      last.AttemptsAt u fp → (∃ range, last.Binds fp range) →
      (attempts.foldl Session.perform s).perform last = s.perform last := by
  intro result
  have hresult : result = (u.answer chain memory registers, s.record (u.binding chain registers)) :=
    u.value_unwindWith chain memory registers s
  refine ⟨fun hnone => ?_, fun henabled h => ?_, fun h hh => ?_, fun fp range e hh => ?_, fun caller hc => ?_,
    fun fp attempts last hops hlast hbinds => Session.perform_of_attempts hops hlast hbinds s⟩
  · rw [hresult] at hnone ⊢
    simp only [binding_of_answer_none hnone, Session.record_none]
  · rw [hresult]
    exact answer_eq_error_iff henabled
  · rw [hresult]
    simp only [binding_of_haltsUnmatched hh, Session.record_none]
  · have hclassifies := (haltsMatched_iff.1 hh).1
    refine ⟨?_, differsAt_of_classifies hclassifies memory s⟩
    rw [hresult]
    exact (answer_eq_error_iff hclassifies.1).2 (.inr ⟨fp, range, e, rfl, hh⟩)
  · rw [hresult] at hc
    obtain ⟨henabled, pc, fp, range, hframe, hmatch, -⟩ := answer_eq_some_iff.1 hc
    have hclassifies : u.Classifies chain registers fp range := ⟨henabled, pc, hframe, hmatch⟩
    exact ⟨fp, range, hclassifies, differsAt_of_classifies hclassifies memory s⟩

end JitFrames
