import JitFrames.Proofs.FrameLabels

/-! Which frames are shown as they are. A frame keeps its name exactly if no frame with its frame pointer has
been classified since the cache was dropped, so a declined leaf function is shown under the label of its
compiled caller. -/
namespace JitFrames

def Unwinder.ClassifiesFrame (u : Unwinder) (chain : FunctionChain) (registers : Registers)
    (pc fp : Addr) : Prop :=
  u.enabled = true ∧ u.frameOf registers = .ok (pc, fp) ∧ ∃ range, chain.FirstMatch pc range

theorem Unwinder.exists_classifies_iff {u : Unwinder} {chain : FunctionChain} {registers : Registers}
    {key : Addr} : (∃ range, u.Classifies chain registers key range) ↔
      ∃ pc, u.ClassifiesFrame chain registers pc key := by
  constructor
  · rintro ⟨range, he, pc, hf, hm⟩
    exact ⟨pc, he, hf, range, hm⟩
  · rintro ⟨pc, he, hf, range, hm⟩
    exact ⟨range, he, pc, hf, hm⟩

namespace Operation

/-- An unwind step or a walk by the enabled unwinder of the configuration, or news of the target. -/
def Unwinds (c : Config) : Operation → Prop
  | .unwind u _ _ | .unwindWith u _ _ _ | .walk u _ _ _ _ => u = { config := c }
  | .notify _ | .drain _ => True
  | _ => False

def ClassifiesFrame : Operation → Addr → Addr → Prop
  | .unwind u target registers, pc, fp => u.ClassifiesFrame (u.registry target).chain registers pc fp
  | .unwindWith u chain _ registers, pc, fp => u.ClassifiesFrame chain registers pc fp
  | .walk u target startPc startFp limit, pc, fp => ∃ g, u.StandsOn target limit ⟨startFp, startPc⟩ g ∧
      u.ClassifiesFrame (u.registry target).chain (u.snapshot g.programCounter g.stackPointer).registers pc fp
  | _, _, _ => False

variable {op : Operation} {ops : List Operation} {key : Addr}

theorem drops_iff : op.Drops ↔ ∃ i ∈ op.incidents, i.drops = true := by
  constructor
  · intro h
    cases op with
    | clear => exact ⟨.cleared, by simp [incidents], rfl⟩
    | notify event =>
      cases event with
      | resumed kind => exact ⟨.resumed kind, by simp [incidents, Incident.ofEvent?], rfl⟩
      | stopped => exact absurd rfl h
    | drain events =>
      obtain ⟨event, hm, he⟩ := h
      cases event with
      | resumed kind => exact ⟨.resumed kind, List.mem_filterMap.2 ⟨_, hm, rfl⟩, rfl⟩
      | stopped => exact absurd rfl he
    | _ => exact h.elim
  · rintro ⟨i, hi, hd⟩
    exact drops_of_mem_incidents hi hd

theorem not_drops_of_binds {range : CodeRange} (h : op.Binds key range) : ¬ op.Drops := by
  cases op <;> first | exact id | exact h.elim

theorem boundSince_incidents_iff : Incident.BoundSince op.incidents key ↔ ∃ range, op.Binds key range := by
  constructor
  · rintro ⟨range, hlast⟩
    exact ⟨range, bound_mem_incidents_iff.1 hlast.mem⟩
  · rintro ⟨range, h⟩
    obtain ⟨before, after, hsplit⟩ := List.append_of_mem (bound_mem_incidents_iff.2 h)
    refine ⟨range, before, after, hsplit, fun i hi => ?_⟩
    have hmem : i ∈ op.incidents := by simp [hsplit, hi]
    have hkeep := mt (fun hd => drops_of_mem_incidents hmem hd) (not_drops_of_binds h)
    exact Bool.eq_false_iff.2 hkeep

/-- One of the operations has the property, and behind it nothing has been dropped. -/
def SinceDrop (P : Operation → Prop) (ops : List Operation) : Prop :=
  ∃ op, P op ∧ LastBut (¬ ·.Drops) ops op

theorem sinceDrop_cons_iff {P : Operation → Prop} : SinceDrop P (op :: ops) ↔
    SinceDrop P ops ∨ P op ∧ ∀ later ∈ ops, ¬ later.Drops := exists_lastBut_cons_iff

theorem SinceDrop.imp {P Q : Operation → Prop} (h : SinceDrop P ops) (hPQ : ∀ op ∈ ops, P op → Q op) :
    SinceDrop Q ops := by
  obtain ⟨op, hop, hlast⟩ := h
  exact ⟨op, hPQ op hlast.mem hop, hlast⟩

/-- Since the target was last resumed, a step on a frame with these registers has been classified. -/
def ClassifiedThisStop (ops : List Operation) (pc fp : Addr) : Prop :=
  SinceDrop (·.ClassifiesFrame pc fp) ops

theorem Unwinds.exists_binds_iff {c : Config} (h : op.Unwinds c) :
    (∃ range, op.Binds key range) ↔ ∃ pc, op.ClassifiesFrame pc key := by
  cases op with
  | unwind u target registers => exact Unwinder.exists_classifies_iff
  | unwindWith u chain memory registers => exact Unwinder.exists_classifies_iff
  | walk u target pc fp limit =>
    simp only [Binds, ClassifiesFrame]
    rw [exists_comm, @exists_comm Addr]
    simp only [exists_and_left, Unwinder.exists_classifies_iff]
  | notify event => simp [Binds, ClassifiesFrame]
  | drain events => simp [Binds, ClassifiesFrame]
  | _ => exact h.elim

theorem sinceDrop_binds_iff {c : Config} (hops : ∀ op ∈ ops, op.Unwinds c) :
    SinceDrop (fun op => ∃ range, op.Binds key range) ops ↔ ∃ pc, ClassifiedThisStop ops pc key := by
  have hswap : SinceDrop (fun op => ∃ pc, op.ClassifiesFrame pc key) ops ↔
      ∃ pc, ClassifiedThisStop ops pc key := by
    simp only [ClassifiedThisStop, SinceDrop, ← exists_and_right]
    exact exists_comm
  rw [← hswap]
  constructor
  · intro h
    exact h.imp fun op hop => (hops op hop).exists_binds_iff.1
  · intro h
    exact h.imp fun op hop => (hops op hop).exists_binds_iff.2

end Operation

open Operation (SinceDrop ClassifiedThisStop)

namespace Session

variable {s : Session} {key : Addr}

theorem lookup_perform_ne_none_iff {op : Operation} : (s.perform op).cache.lookup key ≠ none ↔
    (∃ range, op.Binds key range) ∨ ¬ op.Drops ∧ s.cache.lookup key ≠ none := by
  have hkeep : (∀ i ∈ op.incidents, i.drops = false) ↔ ¬ op.Drops := by
    simp [Operation.drops_iff]
  rw [perform_eq_replay, lookup_replay_ne_none_iff, Operation.boundSince_incidents_iff, hkeep]

theorem lookup_foldl_perform_ne_none_iff {ops : List Operation} :
    (ops.foldl perform s).cache.lookup key ≠ none ↔
      SinceDrop (fun op => ∃ range, op.Binds key range) ops ∨
        (∀ op ∈ ops, ¬ op.Drops) ∧ s.cache.lookup key ≠ none := by
  induction ops generalizing s with
  | nil => simp [SinceDrop, not_lastBut_nil]
  | cons op ops ih =>
    rw [List.foldl_cons, ih, lookup_perform_ne_none_iff, Operation.sinceDrop_cons_iff, List.forall_mem_cons]
    grind

theorem lookup_run_ne_none_iff {c : Config} {ops : List Operation} (hops : ∀ op ∈ ops, op.Unwinds c) :
    (run ops).cache.lookup key ≠ none ↔ ∃ pc, ClassifiedThisStop ops pc key := by
  rw [run, lookup_foldl_perform_ne_none_iff, Operation.sinceDrop_binds_iff hops]
  simp

theorem lookup_run_iff {ops : List Operation} {range : CodeRange} :
    (run ops).cache.lookup key = some range ↔
      Incident.LastBound (ops.flatMap Operation.incidents) key range := by
  rw [run, foldl_perform, lookup_replay_iff]
  simp

theorem run_append_declined {u : Unwinder} {target : Target} {registers : Registers} {ops : List Operation}
    (h : ((u.unwind target registers).on (run ops)).value.1 = .ok none) :
    run (ops ++ [.unwind u target registers]) = run ops := by
  rw [run, List.foldl_append]
  exact perform_of_declined h

end Session

/-- After a run of unwinding with one configuration a frame is shown as it is exactly if no frame with its frame
pointer has been classified since the last resume. -/
theorem shown_as_is_iff_unclassified (c : Config) (ops : List Operation) (hops : ∀ op ∈ ops, op.Unwinds c)
    {F : Type} [FrameView F] (frame : F) (fp : Addr)
    (hfp : FrameView.registers frame c.convention.fpRegister = .ok fp) :
    let shown := ((FrameFilter.ofConfig c).decorate (Session.run ops).cache frame).run.value
    (shown = .ok (.plain frame) ↔ ∀ pc, ¬ ClassifiedThisStop ops pc fp) ∧
    (∀ range, shown = .ok (.jit frame range) ↔
      Incident.LastBound (ops.flatMap Operation.incidents) fp range) ∧
    (∀ pc, (∀ other, ClassifiedThisStop ops other fp → other = pc) → ¬ ClassifiedThisStop ops pc fp →
      ∃ item, shown = .ok item ∧ KeepsName frame item) ∧
    ∀ target registers, ((({ config := c } : Unwinder).unwind target registers).on (Session.run ops)).value.1 =
        .ok none →
      (FrameFilter.ofConfig c).decorate (Session.run (ops ++ [.unwind { config := c } target registers])).cache
        frame = (FrameFilter.ofConfig c).decorate (Session.run ops).cache frame := by
  intro shown
  have hshown : shown = .ok (shownWith (Session.run ops).cache fp frame) :=
    FrameFilter.value_decorate c (Session.run ops).cache hfp
  have hplain : shown = .ok (.plain frame) ↔ ∀ pc, ¬ ClassifiedThisStop ops pc fp := by
    rw [hshown, Except.ok.injEq, shownWith_eq_plain_iff, ← not_exists, ← Session.lookup_run_ne_none_iff hops,
      Decidable.not_not]
  refine ⟨hplain, fun range => ?_, fun pc honly hpc => ?_, fun target registers hdeclined => ?_⟩
  · rw [hshown, Except.ok.injEq, shownWith_eq_jit_iff, Session.lookup_run_iff]
  · have hnone : ∀ other, ¬ ClassifiedThisStop ops other fp := by
      intro other hother
      exact hpc (honly other hother ▸ hother)
    exact ⟨_, hplain.2 hnone, rfl, rfl⟩
  · rw [Session.run_append_declined hdeclined]

theorem shown_as_is_iff_unclassified_across_resume :
    let words : List (Addr × UInt64) :=
      [(0x8000, 0x9000), (0x9000, 0xa000), (0xa000, 0x500000), (0xa008, 0x500200), (0xa010, 0),
       (0x7000, 0x7100), (0x7008, 0x401000)]
    let target := ({ memory := { words }, symbols := [("emacs_jit_context", 0x8000)] } : RecordedTarget).target
    let frame : RecordedFrame := { values := [("rip", 0x500010), ("rbp", 0x7000)], function := some "f" }
    let unwind := Operation.unwind { config := {} } target frame.registers
    let resumed := [unwind, .notify (.resumed .step), .notify .stopped]
    (∀ pc, ¬ ClassifiedThisStop resumed pc 0x7000) ∧
      Incident.LastBound ((resumed ++ [unwind]).flatMap Operation.incidents) 0x7000 ⟨0x500000, 0x500200⟩ := by
  intro words target frame unwind resumed
  have hops : ∀ op ∈ resumed, op.Unwinds {} := by simp [resumed, unwind, Operation.Unwinds]
  have hagain : ∀ op ∈ resumed ++ [unwind], op.Unwinds {} := by
    simp [resumed, unwind, Operation.Unwinds]
  have hbefore := shown_as_is_iff_unclassified {} resumed hops frame 0x7000 rfl
  have hafter := shown_as_is_iff_unclassified {} (resumed ++ [unwind]) hagain frame 0x7000 rfl
  exact ⟨hbefore.1.1 rfl, (hafter.2.1 _).1 rfl⟩

/-- A leaf function that sets up no frame of its own has the frame pointer of its compiled caller. Its step is
declined, and it is shown under the label of the caller. -/
theorem declined_leaf_shown_under_label :
    let words : List (Addr × UInt64) :=
      [(0x8000, 0x9000), (0x9000, 0xa000), (0xa000, 0x500000), (0xa008, 0x500200), (0xa010, 0),
       (0x7000, 0x7100), (0x7008, 0x401000)]
    let target := ({ memory := { words }, symbols := [("emacs_jit_context", 0x8000)] } : RecordedTarget).target
    let u : Unwinder := { config := {} }
    let compiled : RecordedFrame := { values := [("rip", 0x500010), ("rbp", 0x7000)] }
    let leaf : RecordedFrame := { values := [("rip", 0x401234), ("rbp", 0x7000)], function := some "leaf" }
    let before := [Operation.unwind u target compiled.registers]
    let ops := before ++ [Operation.unwind u target leaf.registers]
    (∀ op ∈ ops, op.Unwinds {}) ∧ ¬ ClassifiedThisStop ops 0x401234 0x7000 ∧
      ((u.unwind target leaf.registers).on (Session.run before)).value.1 = .ok none ∧
      ((FrameFilter.ofConfig {}).decorate (Session.run ops).cache leaf).run.value =
        .ok (.jit leaf ⟨0x500000, 0x500200⟩) := by
  intro words target u compiled leaf before ops
  have hops : ∀ op ∈ ops, op.Unwinds {} := by simp [ops, before, u, Operation.Unwinds]
  have hnone : ((u.registry target).chain.scan 0x401234).run.value = .ok none := by rfl
  have hunlisted : ∀ range, ¬ (u.registry target).chain.FirstMatch 0x401234 range := by
    intro range hm
    rw [FunctionChain.value_scan_eq_match_iff.2 hm] at hnone
    cases hnone
  refine ⟨hops, ?_, rfl, rfl⟩
  rintro ⟨op, hop, hlast⟩
  have hcases : op = .unwind u target compiled.registers ∨ op = .unwind u target leaf.registers := by
    simpa [ops, before] using hlast.mem
  rcases hcases with rfl | rfl
  all_goals
    obtain ⟨-, -, range, hm⟩ := hop
    exact hunlisted range hm

end JitFrames
