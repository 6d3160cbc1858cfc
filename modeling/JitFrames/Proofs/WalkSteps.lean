import JitFrames.Backtrace
import JitFrames.Proofs.UnwindStep

/-! A walk as the iteration of the unwind step. The main statement is that a walk performs exactly these steps,
and stops at the limit, behind a null frame pointer, at a declined frame or at a step that halts. -/
namespace JitFrames.Unwinder

/-- The unwind step on a frame of which the two registers are known. -/
def unwindAt (u : Unwinder) (target : Target) (f : FrameIdentity) : Step (Option CallerState) :=
  u.unwind target (u.snapshot f.programCounter f.stackPointer).registers

/-- Unwinding from `f` recovers these callers in turn and leads to `g`: each frame is the registers saved before
it, and each step starts on the session that the last one left. -/
inductive Unwinds (u : Unwinder) (target : Target) :
    FrameIdentity → Session → List CallerState → FrameIdentity → Session → Prop
  | refl (f : FrameIdentity) (s : Session) : Unwinds u target f s [] f s
  | step {f next g : FrameIdentity} {s t r : Session} {caller : CallerState} {callers : List CallerState}
      (unwound : ((u.unwindAt target f).on s).value = (.ok (some caller), t))
      (pc : caller.saved? u.convention.pcRegister = some next.programCounter)
      (fp : caller.saved? u.convention.fpRegister = some next.stackPointer)
      (rest : Unwinds u target next t callers g r) : Unwinds u target f s (caller :: callers) g r

/-- The steps of a walk from `f` that gives these callers and leaves the session `r`: no more than `limit`, no
null frame pointer but perhaps the last, and a reason to stop behind them. -/
def WalksTo (u : Unwinder) (target : Target) (limit : Nat) (f : FrameIdentity) (s : Session)
    (ids : List FrameIdentity) (r : Session) : Prop :=
  ∃ callers g, u.Unwinds target f s callers g r ∧ ids = callers.map (·.id) ∧ ids.length ≤ limit ∧
    (∀ id ∈ ids.dropLast, id.stackPointer ≠ 0) ∧
    (ids.length = limit ∨ (∃ id, ids.getLast? = some id ∧ id.stackPointer = 0) ∨
      ((u.unwindAt target g).on r).value.1 = .ok none)

/-- The steps of a walk from `f` that comes to a step which halts, short of the limit. -/
def HaltsWith (u : Unwinder) (target : Target) (limit : Nat) (f : FrameIdentity) (s : Session)
    (e : Halt) (r : Session) : Prop :=
  ∃ callers g t, u.Unwinds target f s callers g t ∧ callers.length < limit ∧
    (∀ caller ∈ callers, caller.id.stackPointer ≠ 0) ∧ ((u.unwindAt target g).on t).value = (.error e, r)

variable {u : Unwinder} {target : Target}

theorem value_unwindAt (u : Unwinder) (target : Target) (f : FrameIdentity) (s : Session) :
    ((u.unwindAt target f).on s).value =
      (u.answer (u.registry target).chain target.memory
        (u.snapshot f.programCounter f.stackPointer).registers,
       s.record (u.binding (u.registry target).chain
        (u.snapshot f.programCounter f.stackPointer).registers)) :=
  u.value_unwindWith _ _ _ s

theorem frameOf_snapshot (h : u.convention.pcRegister ≠ u.convention.fpRegister) (pc fp : Addr) :
    u.frameOf (u.snapshot pc fp).registers = .ok (pc, fp) := by
  simp only [frameOf, snapshot, RegisterSnapshot.registers, if_true, if_neg h.symm]
  rfl

theorem exists_match_of_unwound (h : u.convention.pcRegister ≠ u.convention.fpRegister) {f : FrameIdentity}
    {s t : Session} {caller : CallerState}
    (hu : ((u.unwindAt target f).on s).value = (.ok (some caller), t)) :
    ∃ range, (u.registry target).chain.FirstMatch f.programCounter range ∧
      u.savedCaller target.memory f.stackPointer = .ok caller ∧
      t = s.record (some (f.stackPointer, range)) := by
  rw [value_unwindAt] at hu
  have ha := congrArg Prod.fst hu
  have hs := congrArg Prod.snd hu
  obtain ⟨he, pc, fp, range, hf, hm, hc⟩ := answer_eq_some_iff.1 ha
  rw [frameOf_snapshot h] at hf
  cases hf
  refine ⟨range, hm, hc, ?_⟩
  rw [← binding_eq_some_iff.2 ⟨he, f.programCounter, frameOf_snapshot h _ _, hm⟩]
  exact hs.symm

theorem value_unwindAt_of_match (h : u.convention.pcRegister ≠ u.convention.fpRegister) (henabled : u.enabled = true)
    {f caller : FrameIdentity} {range : CodeRange}
    (hmatch : (u.registry target).chain.FirstMatch f.programCounter range)
    (hfp : target.memory.word (f.stackPointer.offset u.convention.savedFpOffset) u.convention.pointerWidth =
      .ok caller.stackPointer)
    (hpc : target.memory.word (f.stackPointer.offset u.convention.savedPcOffset) u.convention.pointerWidth =
      .ok caller.programCounter) (s : Session) :
    ((u.unwindAt target f).on s).value =
      (.ok (some (u.callerState caller.programCounter caller.stackPointer)),
        s.record (some (f.stackPointer, range))) := by
  have hframe := frameOf_snapshot h f.programCounter f.stackPointer
  have hcaller := savedCaller_eq_ok_iff.2 ⟨_, _, hfp, hpc, rfl⟩
  have hanswer := answer_eq_some_iff.2 ⟨henabled, _, _, range, hframe, hmatch, hcaller⟩
  have hbinding := binding_eq_some_iff.2 ⟨henabled, _, hframe, hmatch⟩
  rw [value_unwindAt, hanswer, hbinding]

theorem saved?_of_unwound (h : u.convention.pcRegister ≠ u.convention.fpRegister) {f : FrameIdentity}
    {s t : Session} {caller : CallerState}
    (hu : ((u.unwindAt target f).on s).value = (.ok (some caller), t)) :
    caller.saved? u.convention.pcRegister = some caller.id.programCounter ∧
      caller.saved? u.convention.fpRegister = some caller.id.stackPointer := by
  obtain ⟨_, _, hc, _⟩ := exists_match_of_unwound h hu
  obtain ⟨callerFp, callerPc, -, -, rfl⟩ := savedCaller_eq_ok_iff.1 hc
  exact saved?_callerState callerPc callerFp h

theorem unwinds_nil_iff {f g : FrameIdentity} {s t : Session} :
    u.Unwinds target f s [] g t ↔ g = f ∧ t = s := by
  constructor
  · rintro ⟨⟩
    exact ⟨rfl, rfl⟩
  · rintro ⟨rfl, rfl⟩
    exact .refl _ _

theorem unwinds_cons_iff (h : u.convention.pcRegister ≠ u.convention.fpRegister) {f g : FrameIdentity}
    {s r : Session} {caller : CallerState} {callers : List CallerState} :
    u.Unwinds target f s (caller :: callers) g r ↔
      ∃ t, ((u.unwindAt target f).on s).value = (.ok (some caller), t) ∧
        u.Unwinds target caller.id t callers g r := by
  constructor
  · rintro (_ | ⟨hu, hpc, hfp, hrest⟩)
    obtain ⟨hpc', hfp'⟩ := saved?_of_unwound h hu
    rename_i next t
    obtain rfl : next = caller.id := by
      cases next
      simp_all
    exact ⟨t, hu, hrest⟩
  · rintro ⟨t, hu, hrest⟩
    obtain ⟨hpc, hfp⟩ := saved?_of_unwound h hu
    exact .step hu hpc hfp hrest

theorem value_walk (u : Unwinder) (target : Target) (pc fp : Addr) (limit : Nat) (s : Session) :
    ((u.walk target pc fp limit).on s).value = ((u.callersFrom target limit pc fp).on s).value := by
  rw [walk, Step.value_traced_bind, Step.value_bind]
  rcases ((u.callersFrom target limit pc fp).on s).value with ⟨_ | callers, t⟩
  · rfl
  · exact Step.value_traced_bind t (log (.walkDone callers.length)) _

theorem value_callersFrom_succ (u : Unwinder) (target : Target) (limit : Nat) (f : FrameIdentity)
    (s : Session) :
    ((u.callersFrom target (limit + 1) f.programCounter f.stackPointer).on s).value =
      match ((u.unwindAt target f).on s).value with
      | (.error h, t) => (.error h, t)
      | (.ok none, t) => (.ok [], t)
      | (.ok (some caller), t) =>
        if caller.id.stackPointer = 0 then (.ok [caller.id], t)
        else
          match ((u.callersFrom target limit caller.id.programCounter caller.id.stackPointer).on t).value with
          | (.error h, r) => (.error h, r)
          | (.ok callers, r) => (.ok (caller.id :: callers), r) := by
  have hu : u.unwind target (u.snapshot f.programCounter f.stackPointer).registers =
      u.unwindAt target f := rfl
  rw [callersFrom, Step.value_bind, hu]
  rcases ((u.unwindAt target f).on s).value with ⟨h | _ | caller, t⟩
  · rfl
  · rfl
  · dsimp only
    rw [Step.value_traced_bind]
    by_cases hn : caller.id.stackPointer = 0
    · simp [hn]
    · simp only [Addr.isNull_iff, hn, if_false]
      rw [Step.value_bind]
      rcases ((u.callersFrom target limit caller.id.programCounter caller.id.stackPointer).on t).value with
        ⟨_ | callers, r⟩ <;> rfl

theorem snd_unwindAt_of_declined {f : FrameIdentity} {s : Session}
    (hd : ((u.unwindAt target f).on s).value.1 = .ok none) : ((u.unwindAt target f).on s).value.2 = s := by
  rw [value_unwindAt] at hd ⊢
  simp only [binding_of_answer_none hd, Session.record_none]

theorem walksTo_nil_iff {limit : Nat} {f : FrameIdentity} {s r : Session} :
    u.WalksTo target limit f s [] r ↔
      r = s ∧ (limit = 0 ∨ ((u.unwindAt target f).on s).value.1 = .ok none) := by
  constructor
  · rintro ⟨callers, g, hw, hids, -, -, hstop⟩
    obtain rfl : callers = [] := List.map_eq_nil_iff.1 hids.symm
    obtain ⟨rfl, rfl⟩ := unwinds_nil_iff.1 hw
    exact ⟨rfl, by simpa [eq_comm] using hstop⟩
  · rintro ⟨rfl, hstop⟩
    exact ⟨[], f, .refl f _, rfl, Nat.zero_le _, by simp, by simpa [eq_comm] using hstop⟩

theorem not_walksTo_zero_cons {f id : FrameIdentity} {ids : List FrameIdentity} {s r : Session} :
    ¬ u.WalksTo target 0 f s (id :: ids) r := by
  rintro ⟨_, _, _, _, hlen, _⟩
  simp at hlen

theorem getLast?_cons_null_iff {id : FrameIdentity} (h : id.stackPointer ≠ 0) (ids : List FrameIdentity) :
    (∃ c, (id :: ids).getLast? = some c ∧ c.stackPointer = 0) ↔
      ∃ c, ids.getLast? = some c ∧ c.stackPointer = 0 := by
  cases ids <;> simp [h, List.getLast?_cons_cons]

theorem dropLast_cons_nonNull_iff {id : FrameIdentity} (h : id.stackPointer ≠ 0) (ids : List FrameIdentity) :
    (∀ c ∈ (id :: ids).dropLast, c.stackPointer ≠ 0) ↔ ∀ c ∈ ids.dropLast, c.stackPointer ≠ 0 := by
  cases ids <;> simp [h]

theorem walksTo_succ_cons_iff (h : u.convention.pcRegister ≠ u.convention.fpRegister) {limit : Nat}
    {f id : FrameIdentity} {ids : List FrameIdentity} {s r : Session} :
    u.WalksTo target (limit + 1) f s (id :: ids) r ↔
      ∃ caller t, ((u.unwindAt target f).on s).value = (.ok (some caller), t) ∧ id = caller.id ∧
        (id.stackPointer = 0 ∧ ids = [] ∧ r = t ∨
          id.stackPointer ≠ 0 ∧ u.WalksTo target limit id t ids r) := by
  constructor
  · rintro ⟨callers, g, hw, hids, hlen, hnull, hstop⟩
    obtain ⟨caller, rest, rfl, rfl, rfl⟩ := List.map_eq_cons_iff.1 hids.symm
    obtain ⟨t, hu, hrest⟩ := (unwinds_cons_iff h).1 hw
    refine ⟨caller, t, hu, rfl, ?_⟩
    by_cases hz : caller.id.stackPointer = 0
    · cases rest with
      | nil => exact .inl ⟨hz, rfl, (unwinds_nil_iff.1 hrest).2⟩
      | cons c rest => exact absurd hz (hnull caller.id (by simp))
    · rw [dropLast_cons_nonNull_iff hz] at hnull
      rw [getLast?_cons_null_iff hz, List.length_cons, Nat.add_right_cancel_iff] at hstop
      exact .inr ⟨hz, rest, g, hrest, rfl, by simpa using hlen, hnull, hstop⟩
  · rintro ⟨caller, t, hu, rfl, ⟨hz, rfl, rfl⟩ | ⟨hz, callers, g, hw, rfl, hlen, hnull, hstop⟩⟩
    · exact ⟨[caller], caller.id, (unwinds_cons_iff h).2 ⟨r, hu, .refl _ _⟩, rfl, by simp, by simp,
        .inr (.inl ⟨caller.id, rfl, hz⟩)⟩
    · refine ⟨caller :: callers, g, (unwinds_cons_iff h).2 ⟨t, hu, hw⟩, rfl, by simpa using hlen,
        (dropLast_cons_nonNull_iff hz _).2 hnull, ?_⟩
      rw [getLast?_cons_null_iff hz, List.length_cons, Nat.add_right_cancel_iff]
      exact hstop

theorem not_haltsWith_zero {f : FrameIdentity} {s r : Session} {e : Halt} :
    ¬ u.HaltsWith target 0 f s e r := by
  rintro ⟨_, _, _, _, hlen, _⟩
  simp at hlen

theorem haltsWith_succ_iff (h : u.convention.pcRegister ≠ u.convention.fpRegister) {limit : Nat}
    {f : FrameIdentity} {s r : Session} {e : Halt} :
    u.HaltsWith target (limit + 1) f s e r ↔
      ((u.unwindAt target f).on s).value = (.error e, r) ∨
        ∃ caller t, ((u.unwindAt target f).on s).value = (.ok (some caller), t) ∧
          caller.id.stackPointer ≠ 0 ∧ u.HaltsWith target limit caller.id t e r := by
  constructor
  · rintro ⟨callers, g, t, hw, hlen, hnull, he⟩
    cases callers with
    | nil =>
      obtain ⟨rfl, rfl⟩ := unwinds_nil_iff.1 hw
      exact .inl he
    | cons caller callers =>
      obtain ⟨t', hu, hrest⟩ := (unwinds_cons_iff h).1 hw
      have hz : caller.id.stackPointer ≠ 0 := hnull caller List.mem_cons_self
      exact .inr ⟨caller, t', hu, hz, callers, g, t, hrest, by simpa using hlen,
        fun c hc => hnull c (List.mem_cons_of_mem _ hc), he⟩
  · rintro (he | ⟨caller, t, hu, hz, callers, g, t', hw, hlen, hnull, he⟩)
    · exact ⟨[], f, s, .refl f s, Nat.zero_lt_succ _, by simp, he⟩
    · refine ⟨caller :: callers, g, t', (unwinds_cons_iff h).2 ⟨t, hu, hw⟩, by simpa using hlen, ?_, he⟩
      intro c hc
      rcases List.mem_cons.1 hc with rfl | hc
      · exact hz
      · exact hnull c hc

theorem walksTo_of_found (h : u.convention.pcRegister ≠ u.convention.fpRegister) {limit : Nat}
    {f : FrameIdentity} {ids : List FrameIdentity} {s t r : Session} {caller : CallerState}
    (hu : ((u.unwindAt target f).on s).value = (.ok (some caller), t)) :
    u.WalksTo target (limit + 1) f s ids r ↔
      caller.id.stackPointer = 0 ∧ ids = [caller.id] ∧ r = t ∨
        caller.id.stackPointer ≠ 0 ∧ ∃ rest, ids = caller.id :: rest ∧
          u.WalksTo target limit caller.id t rest r := by
  cases ids with
  | nil => simp [walksTo_nil_iff, hu]
  | cons id rest =>
    rw [walksTo_succ_cons_iff h, hu]
    constructor
    · rintro ⟨_, _, hc, rfl, ⟨hz, rfl, rfl⟩ | ⟨hz, hw⟩⟩
      · cases hc
        exact .inl ⟨hz, rfl, rfl⟩
      · cases hc
        exact .inr ⟨hz, rest, rfl, hw⟩
    · rintro (⟨hz, hids, rfl⟩ | ⟨hz, _, hids, hw⟩)
      · cases hids
        exact ⟨caller, r, rfl, rfl, .inl ⟨hz, rfl, rfl⟩⟩
      · cases hids
        exact ⟨caller, t, rfl, rfl, .inr ⟨hz, hw⟩⟩

theorem haltsWith_of_found (h : u.convention.pcRegister ≠ u.convention.fpRegister) {limit : Nat}
    {f : FrameIdentity} {s t r : Session} {e : Halt} {caller : CallerState}
    (hu : ((u.unwindAt target f).on s).value = (.ok (some caller), t)) :
    u.HaltsWith target (limit + 1) f s e r ↔
      caller.id.stackPointer ≠ 0 ∧ u.HaltsWith target limit caller.id t e r := by
  rw [haltsWith_succ_iff h, hu]
  constructor
  · rintro (hc | ⟨_, _, hc, hz, hw⟩)
    · cases hc
    · cases hc
      exact ⟨hz, hw⟩
  · rintro ⟨hz, hw⟩
    exact .inr ⟨caller, t, rfl, hz, hw⟩

/-- What a walk returns, and the session it leaves, are those of its steps. -/
theorem value_callersFrom_iff (h : u.convention.pcRegister ≠ u.convention.fpRegister) (limit : Nat)
    (f : FrameIdentity) (s r : Session) :
    (∀ ids, ((u.callersFrom target limit f.programCounter f.stackPointer).on s).value = (.ok ids, r) ↔
      u.WalksTo target limit f s ids r) ∧
    ∀ e, ((u.callersFrom target limit f.programCounter f.stackPointer).on s).value = (.error e, r) ↔
      u.HaltsWith target limit f s e r := by
  -- Each step hands on a frame and a session, so both are general; callers and errors go through together.
  induction limit generalizing f s with
  | zero =>
    have hv : ((u.callersFrom target 0 f.programCounter f.stackPointer).on s).value = (.ok [], s) := rfl
    rw [hv]
    refine ⟨fun ids => ?_, fun e => ?_⟩
    · cases ids with
      | nil => simp [walksTo_nil_iff, eq_comm]
      | cons id ids => simp [not_walksTo_zero_cons]
    · simp [not_haltsWith_zero]
  | succ limit ih =>
    rw [value_callersFrom_succ]
    rcases hv : ((u.unwindAt target f).on s).value with ⟨e | _ | caller, t⟩
    · refine ⟨fun ids => ?_, fun e => ?_⟩
      · cases ids <;> simp [walksTo_nil_iff, walksTo_succ_cons_iff h, hv]
      · simp [haltsWith_succ_iff h, hv]
    · have ht : t = s := by simpa [hv] using snd_unwindAt_of_declined (congrArg Prod.fst hv)
      refine ⟨fun ids => ?_, fun e => ?_⟩
      · cases ids <;> simp [walksTo_nil_iff, walksTo_succ_cons_iff h, hv, ht, eq_comm]
      · simp [haltsWith_succ_iff h, hv]
    · simp only [walksTo_of_found h hv, haltsWith_of_found h hv]
      by_cases hz : caller.id.stackPointer = 0
      · simp [hz, eq_comm]
      · obtain ⟨hok, herror⟩ := ih caller.id t
        simp only [hz, if_false, ne_eq, not_false_eq_true, false_and, true_and, false_or, ← hok, ← herror]
        rcases ((u.callersFrom target limit caller.id.programCounter caller.id.stackPointer).on t).value
          with ⟨e | callers, t'⟩
        · simp
        · refine ⟨fun ids => ⟨fun hc => ?_, ?_⟩, by simp⟩
          · cases hc
            exact ⟨callers, rfl, rfl⟩
          · rintro ⟨rest, rfl, hc⟩
            cases hc
            rfl

/-- The session `r` differs from `s` by the bindings that unwinding these frames in turn leaves: each frame
pointer is bound to the first match of the last frame that has it. -/
def BindsFrames (u : Unwinder) (target : Target) (frames : List FrameIdentity) (s r : Session) : Prop :=
  r.epoch = s.epoch ∧ ∀ key,
    match frames.findRev? (·.stackPointer == key) with
    | some f => ∃ range, (u.registry target).chain.FirstMatch f.programCounter range ∧
        r.cache.lookup key = some range
    | none => r.cache.lookup key = s.cache.lookup key

theorem Unwinds.bindsFrames (h : u.convention.pcRegister ≠ u.convention.fpRegister) {f g : FrameIdentity}
    {s r : Session} {callers : List CallerState} (hw : u.Unwinds target f s callers g r) :
    u.BindsFrames target (f :: callers.map (·.id)).dropLast s r := by
  induction callers generalizing f s with
  | nil =>
    obtain ⟨-, rfl⟩ := unwinds_nil_iff.1 hw
    exact ⟨rfl, fun _ => rfl⟩
  | cons caller callers ih =>
    obtain ⟨t, hu, hrest⟩ := (unwinds_cons_iff h).1 hw
    obtain ⟨range, hm, -, rfl⟩ := exists_match_of_unwound h hu
    obtain ⟨hepoch, hkeys⟩ := ih hrest
    refine ⟨by rw [hepoch, Session.epoch_record], fun key => ?_⟩
    -- The binding of `f` stays unless a later frame has its frame pointer again.
    have hk := hkeys key
    rw [List.map_cons, List.dropLast_cons_cons, List.findRev?]
    cases hl : (caller.id :: callers.map (·.id)).dropLast.findRev? (·.stackPointer == key) with
    | none =>
      simp only [hl] at hk ⊢
      rw [Session.lookup_record_some] at hk
      by_cases hf : f.stackPointer = key
      · rw [if_pos hf] at hk
        simp only [beq_iff_eq, hf, if_true]
        exact ⟨range, hm, hk⟩
      · rw [if_neg hf] at hk
        simp only [beq_iff_eq, hf, if_false]
        exact hk
    | some last =>
      rw [hl] at hk
      exact hk

theorem Unwinds.savedCaller_ok (h : u.convention.pcRegister ≠ u.convention.fpRegister) {f g : FrameIdentity}
    {s r : Session} {callers : List CallerState} (hw : u.Unwinds target f s callers g r)
    {frame : FrameIdentity} (hm : frame ∈ (f :: callers.map (·.id)).dropLast) :
    ∃ caller, u.savedCaller target.memory frame.stackPointer = .ok caller := by
  induction callers generalizing f s with
  | nil => simp at hm
  | cons caller callers ih =>
    obtain ⟨t, hu, hrest⟩ := (unwinds_cons_iff h).1 hw
    rw [List.map_cons, List.dropLast_cons_cons] at hm
    rcases List.mem_cons.1 hm with rfl | hm
    · obtain ⟨_, _, hc, _⟩ := exists_match_of_unwound h hu
      exact ⟨caller, hc⟩
    · exact ih hrest hm

theorem lookup_of_halted {g : FrameIdentity} {t r : Session} {e : Halt}
    (he : ((u.unwindAt target g).on t).value = (.error e, r)) {key : Addr}
    {caller : CallerState} (hc : u.savedCaller target.memory key = .ok caller) :
    r.cache.lookup key = t.cache.lookup key := by
  rw [value_unwindAt] at he
  obtain ⟨ha, rfl⟩ := Prod.mk.inj he
  rcases hb : u.binding (u.registry target).chain (u.snapshot g.programCounter g.stackPointer).registers with
    _ | ⟨k, range⟩
  · rfl
  · obtain ⟨hen, pc, hf, hs⟩ := binding_eq_some_iff.1 hb
    rw [Session.lookup_record_some, if_neg]
    rintro rfl
    simp [answer_eq_some_iff.2 ⟨hen, pc, k, range, hf, hs, hc⟩] at ha

/-- A walk returns callers, or halts, exactly where its steps do. Behind it each unwound frame pointer is bound
to the first match of the last frame unwound with it. -/
theorem walk_iterates (u : Unwinder) (h : u.convention.pcRegister ≠ u.convention.fpRegister) (target : Target)
    (start : FrameIdentity) (limit : Nat) (s : Session) :
    let result := ((u.walk target start.programCounter start.stackPointer limit).on s).value
    (∀ ids r, result = (.ok ids, r) ↔ u.WalksTo target limit start s ids r) ∧
    (∀ e r, result = (.error e, r) ↔ u.HaltsWith target limit start s e r) ∧
    (∀ ids r, result = (.ok ids, r) → u.BindsFrames target (start :: ids).dropLast s r) ∧
    ∀ e r, result = (.error e, r) → ∃ callers g t, u.Unwinds target start s callers g t ∧
      ((u.unwindAt target g).on t).value = (.error e, r) ∧
      u.BindsFrames target (start :: callers.map (·.id)).dropLast s t ∧
      ∀ f ∈ (start :: callers.map (·.id)).dropLast,
        r.cache.lookup f.stackPointer = t.cache.lookup f.stackPointer := by
  dsimp only
  rw [value_walk]
  have hsteps := fun r => @value_callersFrom_iff u target h limit start s r
  refine ⟨fun ids r => (hsteps r).1 ids, fun e r => (hsteps r).2 e, fun ids r hok => ?_, fun e r herror => ?_⟩
  · obtain ⟨callers, g, hw, rfl, -⟩ := ((hsteps r).1 ids).1 hok
    exact hw.bindsFrames h
  · obtain ⟨callers, g, t, hw, -, -, he⟩ := ((hsteps r).2 e).1 herror
    refine ⟨callers, g, t, hw, he, hw.bindsFrames h, fun f hf => ?_⟩
    obtain ⟨caller, hc⟩ := hw.savedCaller_ok h hf
    exact lookup_of_halted he hc

/-- A frame that is its own caller: every step binds the frame pointer anew, and the limit ends the walk. -/
theorem walk_iterates_on_self_linked :
    let u : Unwinder := { config := {} }
    let words : List (Addr × UInt64) :=
      [(0x8000, 0x9000), (0x9000, 0xa000), (0xa000, 0x500000), (0xa008, 0x500100), (0xa010, 0xb000),
       (0xb000, 0x500100), (0xb008, 0x500200), (0xb010, 0), (0x7000, 0x7000), (0x7008, 0x500190)]
    let memory : Memory := { word := fun addr width =>
      (words.lookup addr).elim (.error (.memory addr width "unmapped")) .ok }
    let target : Target := { memory, symbols := { find := fun _ => some 0x8000 } }
    let start : FrameIdentity := ⟨0x7000, 0x500010⟩
    let again : FrameIdentity := ⟨0x7000, 0x500190⟩
    ∃ r, u.WalksTo target 3 start {} [again, again, again] r ∧
      u.BindsFrames target [start, again, again] {} r ∧
      r.cache.lookup 0x7000 = some ⟨0x500100, 0x500200⟩ := by
  intro u words memory target start again
  have h : u.convention.pcRegister ≠ u.convention.fpRegister := by decide
  have hiter := walk_iterates u h target start 3 {}
  let result := ((u.walk target start.programCounter start.stackPointer 3).on {}).value
  have hresult : result = (.ok [again, again, again], result.2) := by rfl
  refine ⟨_, (hiter.1 _ _).1 hresult, hiter.2.2.1 _ _ hresult, ?_⟩
  decide +kernel

end JitFrames.Unwinder
