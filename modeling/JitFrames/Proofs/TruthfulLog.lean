import JitFrames.Proofs.StepLog
import JitFrames.Proofs.WalkLimits
import JitFrames.Recording

/-! The log read back: which nodes a step has read, what it has bound and answered, and which callers a walk has
found. The log is right about this whatever the step or the walk has come to, and about every notification. -/
namespace JitFrames.Unwinder

variable {u : Unwinder} {chain : FunctionChain} {target : Target} {registers : Registers} {pc fp : Addr}

/-- The log of a step has the nodes read in full, in order and a match last, the binding with the range it
replaces, a warning where the root cannot be read, and the answer. -/
structure LogsTruly (u : Unwinder) (target : Target) (registers : Registers) (s : Session)
    (step : Traced (Except Halt (Option CallerState) × Session)) : Prop where
  reads : step.value.1 ≠ .error .endless → ∀ pc fp, u.Reaches registers pc fp →
    (u.registry target).chain.ReadsInOrder pc (step.events.filterMap Event.nodeRead?)
  matched : step.value.1 ≠ .error .endless → ∀ pc fp, u.Reaches registers pc fp → ∀ range,
    (u.registry target).chain.FirstMatch pc range ↔ range.contains pc = true ∧
      ∃ addr, (step.events.filterMap Event.nodeRead?).getLast? = some (addr, range)
  unread : (∀ pc fp, ¬ u.Reaches registers pc fp) → step.events.filterMap Event.nodeRead? = []
  bound : ∀ key range, u.Classifies (u.registry target).chain registers key range →
    step.value.2 = s.record (some (key, range)) ∧
      step.eventsOf .binding = .classified range :: s.replacementLog key range
  unbound : (∀ key range, ¬ u.Classifies (u.registry target).chain registers key range) →
    step.value.2 = s ∧ step.eventsOf .binding = []
  warned : ∀ pc fp e, u.Reaches registers pc fp → (u.registry target).RootFails e →
    step.events.filter (·.level = .warn) = [.rootUnreadable u.config.layout.rootSymbol e]
  unwarned : ¬ ((∃ pc fp, u.Reaches registers pc fp) ∧ ∃ e, (u.registry target).RootFails e) →
    step.events.filter (·.level = .warn) = []
  unwound : ∀ caller, step.value.1 = .ok (some caller) →
    ∃ key range, u.Classifies (u.registry target).chain registers key range ∧
      step.eventsOf .answer = [.unwound range caller.id.programCounter caller.id.stackPointer]
  declined : u.enabled = true → step.value.1 = .ok none → step.eventsOf .answer = [.declined]
  unanswered : u.enabled = false ∨ (∃ h, step.value.1 = .error h) → step.eventsOf .answer = []
  disabled : u.enabled = false → ∀ e ∈ step.events, e.isSpan = true

theorem reaches_or (u : Unwinder) (registers : Registers) :
    (∃ pc fp, u.Reaches registers pc fp) ∨ ∀ pc fp, ¬ u.Reaches registers pc fp := by
  by_cases h : ∃ pc fp, u.Reaches registers pc fp
  · exact .inl h
  · exact .inr fun pc fp hr => h ⟨pc, fp, hr⟩

theorem nodes_unwind (target : Target) (s : Session) :
    ((u.unwind target registers).on s).events.filterMap Event.nodeRead? =
      (((u.unwind target registers).on s).eventsOf .nodes).filterMap Event.nodeRead? := by
  refine Traced.filterMap_events _ fun e he => ?_
  cases e <;> first | rfl | exact absurd rfl he

theorem readsInOrder_unwind (h : u.Reaches registers pc fp) (target : Target) (s : Session)
    (hends : ((u.unwind target registers).on s).value.1 ≠ .error .endless) :
    (u.registry target).chain.ReadsInOrder pc
      (((u.unwind target registers).on s).events.filterMap Event.nodeRead?) := by
  rw [nodes_unwind, eventsOf_unwind_of_reaches h target s (by decide)]
  refine FunctionChain.readsInOrder_readLog (FunctionChain.quiet_registry _) fun hscan => hends ?_
  rw [unwind, fst_unwindWith, answer, if_pos h.1, h.2]
  simp only [hscan]

theorem Classifies.exists_reaches {key : Addr} {range : CodeRange}
    (h : u.Classifies chain registers key range) :
    ∃ pc, u.Reaches registers pc key ∧ chain.FirstMatch pc range := by
  obtain ⟨he, pc, hframe, hm⟩ := h
  exact ⟨pc, ⟨he, hframe⟩, hm⟩

theorem binding_of_not_reaches (h : ∀ pc fp, ¬ u.Reaches registers pc fp) : u.binding chain registers = none := by
  refine Option.eq_none_iff_forall_ne_some.2 fun b hb => ?_
  obtain ⟨pc, hr, -⟩ := (binding_eq_some_iff.1 hb).exists_reaches
  exact h pc _ hr

theorem eventsOf_binding (u : Unwinder) (target : Target) (registers : Registers) (s : Session) :
    ((u.unwind target registers).on s).eventsOf .binding =
      s.bindingLog (u.binding (u.registry target).chain registers) := by
  obtain ⟨pc, fp, h⟩ | h := u.reaches_or registers
  · rw [eventsOf_unwind_of_reaches h target s (by decide)]
    simp [partLog, binding, h.1, h.2]
  · rw [eventsOf_unwind_of_not_reaches h target s (by decide) (by decide), binding_of_not_reaches h]
    rfl

theorem warnings_unwind (target : Target) (s : Session) :
    ((u.unwind target registers).on s).events.filter (·.level = .warn) =
      (((u.unwind target registers).on s).eventsOf .root).filter (·.level = .warn) := by
  refine Traced.filter_events _ fun e he => ?_
  cases e <;> simp_all [Event.level, Event.part]

theorem eventsOf_answer_of_some {target : Target} {caller : CallerState}
    (h : u.answer (u.registry target).chain target.memory registers = .ok (some caller)) (s : Session) :
    ∃ key range, u.Classifies (u.registry target).chain registers key range ∧
      ((u.unwind target registers).on s).eventsOf .answer =
        [.unwound range caller.id.programCounter caller.id.stackPointer] := by
  obtain ⟨he, pc, fp, range, hframe, hm, hc⟩ := answer_eq_some_iff.1 h
  refine ⟨fp, range, ⟨he, pc, hframe, hm⟩, ?_⟩
  rw [eventsOf_unwind_of_reaches ⟨he, hframe⟩ target s (by decide), partLog, answerLog,
    FunctionChain.value_scan_eq_match_iff.2 hm, hc]

theorem eventsOf_answer_of_none {target : Target} (he : u.enabled = true)
    (h : u.answer (u.registry target).chain target.memory registers = .ok none) (s : Session) :
    ((u.unwind target registers).on s).eventsOf .answer = [.declined] := by
  rcases answer_eq_none_iff.1 h with hd | ⟨pc, fp, hframe, hscan⟩
  · simp [he] at hd
  · rw [eventsOf_unwind_of_reaches ⟨he, hframe⟩ target s (by decide), partLog, answerLog, hscan]

theorem eventsOf_answer_of_error {target : Target} {e : Halt}
    (h : u.answer (u.registry target).chain target.memory registers = .error e) (s : Session) :
    ((u.unwind target registers).on s).eventsOf .answer = [] := by
  obtain ⟨pc, fp, hr⟩ | hr := u.reaches_or registers
  · rw [eventsOf_unwind_of_reaches hr target s (by decide), partLog, answerLog]
    rw [answer, if_pos hr.1, hr.2] at h
    dsimp only at h
    rcases hscan : ((u.registry target).chain.scan pc).run.value with h' | _ | range
    · rfl
    · simp [hscan] at h
    · cases hc : u.savedCaller target.memory fp with
      | error e' => rfl
      | ok caller => simp [hscan, hc, Except.map] at h
  · exact eventsOf_unwind_of_not_reaches hr target s (by decide) (by decide)

theorem logsTruly_unwind (u : Unwinder) (target : Target) (registers : Registers) (s : Session) :
    u.LogsTruly target registers s ((u.unwind target registers).on s) := by
  have hanswer := fst_unwindWith u (u.registry target).chain target.memory registers s
  constructor
  case reads => exact fun hends pc fp h => readsInOrder_unwind h target s hends
  case matched => exact fun hends pc fp h range => (readsInOrder_unwind h target s hends).firstMatch_iff
  case unread =>
    intro h
    rw [nodes_unwind, eventsOf_unwind_of_not_reaches h target s (by decide) (by decide)]
    rfl
  case bound =>
    intro key range h
    rw [eventsOf_binding, binding_eq_some_iff.2 h]
    exact ⟨h.snd_unwindWith target.memory s, rfl⟩
  case unbound =>
    intro h
    have hnone : u.binding (u.registry target).chain registers = none :=
      Option.eq_none_iff_forall_ne_some.2 fun b hb => h b.1 b.2 (binding_eq_some_iff.1 hb)
    rw [eventsOf_binding, unwind, value_unwindWith, hnone]
    exact ⟨rfl, rfl⟩
  case warned =>
    intro pc fp e h he
    rw [warnings_unwind, eventsOf_unwind_of_reaches h target s (by decide)]
    exact Registry.warnings_rootLog he
  case unwarned =>
    intro h
    rw [warnings_unwind]
    obtain ⟨pc, fp, hr⟩ | hr := u.reaches_or registers
    · rw [eventsOf_unwind_of_reaches hr target s (by decide)]
      exact Registry.warnings_rootLog_eq_nil fun e he => h ⟨⟨pc, fp, hr⟩, e, he⟩
    · rw [eventsOf_unwind_of_not_reaches hr target s (by decide) (by decide)]
      rfl
  case unwound => exact fun caller h => eventsOf_answer_of_some (hanswer.symm.trans h) s
  case declined => exact fun he h => eventsOf_answer_of_none he (hanswer.symm.trans h) s
  case unanswered =>
    rintro (hd | ⟨e, h⟩)
    · refine eventsOf_unwind_of_not_reaches (fun pc fp hr => ?_) target s (by decide) (by decide)
      cases hd.symm.trans hr.1
    · exact eventsOf_answer_of_error (hanswer.symm.trans h) s
  case disabled =>
    intro hd e he
    have hevents : ((u.unwind target registers).on s).events = [.unwinding u.name] := by
      simp [unwind, unwindWith, hd]
    rw [hevents, List.mem_singleton] at he
    rw [he]
    rfl

def foundEvent (id : FrameIdentity) : Event := .callerFound id.programCounter id.stackPointer

theorem walkEvents_unwindAt (u : Unwinder) (target : Target) (f : FrameIdentity) (s : Session) :
    ((u.unwindAt target f).on s).eventsOf .walk = [] := by
  obtain ⟨pc, fp, h⟩ | h := u.reaches_or (u.snapshot f.programCounter f.stackPointer).registers
  · exact eventsOf_unwind_of_reaches h target s (by decide)
  · exact eventsOf_unwind_of_not_reaches h target s (by decide) (by decide)

theorem own_callersFrom_succ (u : Unwinder) (target : Target) (limit : Nat) (f : FrameIdentity) (s : Session) :
    ((u.callersFrom target (limit + 1) f.programCounter f.stackPointer).on s).own =
      ((u.unwindAt target f).on s).own ++
        match ((u.unwindAt target f).on s).value with
        | (.ok (some caller), t) =>
          foundEvent caller.id :: if caller.id.stackPointer = 0 then [] else
            ((u.callersFrom target limit caller.id.programCounter caller.id.stackPointer).on t).own
        | _ => [] := by
  have hu : u.unwind target (u.snapshot f.programCounter f.stackPointer).registers =
      u.unwindAt target f := rfl
  rw [callersFrom, Step.own_bind, hu]
  rcases ((u.unwindAt target f).on s).value with ⟨h | _ | caller, t⟩
  · rfl
  · rfl
  · dsimp only
    rw [Step.own_traced_bind, Traced.own_log rfl]
    simp only [List.singleton_append, foundEvent, List.append_cancel_left_eq, List.cons.injEq, true_and]
    by_cases hn : caller.id.stackPointer = 0
    · simp [hn]
    · simp only [Addr.isNull_iff, hn, if_false, Step.own_bind]
      rcases ((u.callersFrom target limit caller.id.programCounter caller.id.stackPointer).on t).value with
        ⟨_ | callers, r⟩ <;> exact List.append_nil _

theorem walkEvents_callersFrom_succ (u : Unwinder) (target : Target) (limit : Nat) (f : FrameIdentity)
    (s : Session) :
    ((u.callersFrom target (limit + 1) f.programCounter f.stackPointer).on s).eventsOf .walk =
        match ((u.unwindAt target f).on s).value with
        | (.ok (some caller), t) =>
          foundEvent caller.id :: if caller.id.stackPointer = 0 then [] else
            ((u.callersFrom target limit caller.id.programCounter caller.id.stackPointer).on t).eventsOf .walk
        | _ => [] := by
  have hstep := walkEvents_unwindAt u target f s
  rw [Traced.eventsOf_eq _ (by decide)] at hstep
  rw [Traced.eventsOf_eq _ (by decide), own_callersFrom_succ, List.filter_append, hstep, List.nil_append]
  rcases ((u.unwindAt target f).on s).value with ⟨h | _ | caller, t⟩
  · rfl
  · rfl
  · dsimp only
    rw [Traced.eventsOf_eq _ (by decide), List.filter_cons_of_pos (by rfl)]
    split <;> rfl

theorem walkEvents_callersFrom (u : Unwinder) (target : Target) (limit : Nat) (f : FrameIdentity) (s r : Session) :
    (∀ callers, ((u.callersFrom target limit f.programCounter f.stackPointer).on s).value = (.ok callers, r) →
      ((u.callersFrom target limit f.programCounter f.stackPointer).on s).eventsOf .walk =
        callers.map foundEvent) ∧
    ∀ h, ((u.callersFrom target limit f.programCounter f.stackPointer).on s).value = (.error h, r) →
      ∃ callers t, callers.length < limit ∧
        ((u.callersFrom target callers.length f.programCounter f.stackPointer).on s).value = (.ok callers, t) ∧
        ((u.unwindAt target (callers.getLastD f)).on t).value = (.error h, r) ∧
        ((u.callersFrom target limit f.programCounter f.stackPointer).on s).eventsOf .walk =
          callers.map foundEvent := by
  -- Frame and session are general: every step hands both on, and a halt may come at any of them.
  induction limit generalizing f s with
  | zero =>
    refine ⟨fun callers hv => ?_, fun h hv => nomatch congrArg Prod.fst hv⟩
    obtain rfl : [] = callers := Except.ok.inj (congrArg Prod.fst hv)
    rfl
  | succ limit ih =>
    rw [value_callersFrom_succ, walkEvents_callersFrom_succ]
    rcases hv : ((u.unwindAt target f).on s).value with ⟨h | _ | caller, t⟩
    · dsimp only
      refine ⟨fun callers hc => (nomatch congrArg Prod.fst hc), fun h hc => ?_⟩
      cases hc
      exact ⟨[], s, Nat.zero_lt_succ limit, rfl, hv, rfl⟩
    · refine ⟨fun callers hc => ?_, fun h hc => nomatch congrArg Prod.fst hc⟩
      obtain rfl : [] = callers := Except.ok.inj (congrArg Prod.fst hc)
      rfl
    · dsimp only
      by_cases hn : caller.id.stackPointer = 0
      · simp only [hn, if_true]
        refine ⟨fun callers hc => ?_, fun h hc => nomatch congrArg Prod.fst hc⟩
        obtain rfl : [caller.id] = callers := Except.ok.inj (congrArg Prod.fst hc)
        rfl
      · simp only [hn, if_false]
        obtain ⟨hok, herror⟩ := ih caller.id t
        rcases hrest : ((u.callersFrom target limit caller.id.programCounter caller.id.stackPointer).on t).value
          with ⟨h' | rest, t'⟩
        · refine ⟨fun callers hc => (nomatch congrArg Prod.fst hc), fun h hc => ?_⟩
          obtain ⟨callers, last, hlt, hcallers, hhalt, hevents⟩ := herror h (hrest.trans hc)
          have hlast : (caller.id :: callers).getLastD f = callers.getLastD caller.id := List.getLastD_cons
          refine ⟨caller.id :: callers, last, Nat.succ_lt_succ hlt, ?_, hlast ▸ hhalt,
            by rw [hevents, List.map_cons]⟩
          rw [List.length_cons, value_callersFrom_succ, hv]
          simp only [hn, if_false, hcallers]
        · refine ⟨fun callers hc => ?_, fun h hc => nomatch congrArg Prod.fst hc⟩
          cases hc
          rw [hok rest hrest, List.map_cons]

/-- The log of a walk has the callers found, in order, and how many they are; that of a walk that halts has
those of the longest shorter walk, and no such number. -/
structure LogsWalkTruly (u : Unwinder) (target : Target) (limit : Nat) (start : FrameIdentity) (s : Session)
    (walk : Traced WalkResult) : Prop where
  done : ∀ callers, walk.value.1 = .ok callers → walk.eventsOf .walk =
    .walking start.programCounter start.stackPointer limit ::
      (callers.map foundEvent ++ [.walkDone callers.length])
  halted : ∀ h, walk.value.1 = .error h → ∃ callers t, callers.length < limit ∧
    u.walkFrom target callers.length start s = (.ok callers, t) ∧
    ((u.unwindAt target (callers.getLastD start)).on t).value = (.error h, walk.value.2) ∧
    walk.eventsOf .walk =
      .walking start.programCounter start.stackPointer limit :: callers.map foundEvent

theorem walkEvents_walk (u : Unwinder) (target : Target) (pc fp : Addr) (limit : Nat) (s : Session) :
    ((u.walk target pc fp limit).on s).eventsOf .walk = .walking pc fp limit ::
      (((u.callersFrom target limit pc fp).on s).eventsOf .walk ++
        match ((u.callersFrom target limit pc fp).on s).value.1 with
        | .ok callers => [.walkDone callers.length]
        | .error _ => []) := by
  rw [Traced.eventsOf_eq _ (by decide), Traced.eventsOf_eq _ (by decide), walk, Step.own_traced_bind,
    Step.own_bind, Traced.own_log rfl, List.singleton_append, List.filter_cons_of_pos (by rfl), List.filter_append]
  rcases ((u.callersFrom target limit pc fp).on s).value with ⟨_ | callers, t⟩ <;> rfl

theorem logsWalkTruly_walk (u : Unwinder) (target : Target) (limit : Nat) (start : FrameIdentity) (s : Session) :
    u.LogsWalkTruly target limit start s
      ((u.walk target start.programCounter start.stackPointer limit).on s) := by
  obtain ⟨hdone, hhalted⟩ := walkEvents_callersFrom u target limit start s
    ((u.callersFrom target limit start.programCounter start.stackPointer).on s).value.2
  constructor
  case done =>
    intro callers hc
    rw [value_walk] at hc
    rw [walkEvents_walk, hdone callers (Prod.ext hc rfl), hc]
  case halted =>
    intro h hc
    rw [value_walk] at hc
    obtain ⟨callers, t, hlt, hcallers, hhalt, hevents⟩ := hhalted h (Prod.ext hc rfl)
    refine ⟨callers, t, hlt, ?_, ?_, ?_⟩
    · rw [walkFrom, value_walk, hcallers]
    · rw [value_walk, hhalt]
    · rw [walkEvents_walk, hevents, hc, List.append_nil]

end JitFrames.Unwinder

namespace JitFrames.Session

/-- What a session logs of a notification, before it takes note of it. -/
def notice (s : Session) : TargetEvent → Event
  | .resumed kind => .resumed kind s.cache.size s.epoch
  | .stopped => .stopped s.epoch

theorem events_notify (s : Session) (e : TargetEvent) : (s.notify e).events = [s.notice e] := by
  cases e <;> rfl

/-- Every notification is logged once, with what the session was when its turn came. -/
theorem getElem?_events_notifyAll (s : Session) (queue : List TargetEvent) (i : Nat) :
    (s.notifyAll queue).events[i]? = queue[i]?.map (s.notifyAll (queue.take i)).value.notice := by
  induction queue generalizing s i with
  | nil => simp
  | cons e queue ih =>
    rw [notifyAll_cons, Traced.events_bind, events_notify, List.singleton_append]
    cases i with
    | zero => rfl
    | succ i => simp [ih]

end JitFrames.Session

namespace JitFrames

/-- The log is right about every step, every walk and every notification. -/
theorem log_tells_what_is_done (u : Unwinder) (target : Target) :
    (∀ registers s, u.LogsTruly target registers s ((u.unwind target registers).on s)) ∧
    (∀ limit (start : FrameIdentity) s, u.LogsWalkTruly target limit start s
      ((u.walk target start.programCounter start.stackPointer limit).on s)) ∧
    ∀ (s : Session) (queue : List TargetEvent) (i : Nat), (s.notifyAll queue).events[i]? =
      queue[i]?.map (s.notifyAll (queue.take i)).value.notice :=
  ⟨u.logsTruly_unwind target, u.logsWalkTruly_walk target, Session.getElem?_events_notifyAll⟩

/-- A frame in the second function of two, with a frame pointer that is bound to the first. -/
theorem log_tells_what_is_done_on_rebound :
    let words : List (Addr × UInt64) :=
      [(0x8000, 0x9000), (0x9000, 0xa000), (0xa000, 0x500000), (0xa008, 0x500100), (0xa010, 0xb000),
       (0xb000, 0x500100), (0xb008, 0x500200), (0xb010, 0), (0x7000, 0x7100), (0x7008, 0x500190)]
    let target := ({ memory := { words }, symbols := [("emacs_jit_context", 0x8000)] } : RecordedTarget).target
    let u : Unwinder := { config := {} }
    let registers := (u.snapshot 0x500110 0x7000).registers
    let s : Session := { cache := FrameCache.empty.insert 0x7000 ⟨0x500000, 0x500100⟩ }
    let step := (u.unwind target registers).on s
    u.Classifies (u.registry target).chain registers 0x7000 ⟨0x500100, 0x500200⟩ ∧
      (∃ addr, (step.events.filterMap Event.nodeRead?).getLast? = some (addr, ⟨0x500100, 0x500200⟩)) ∧
      step.eventsOf .binding = [.classified ⟨0x500100, 0x500200⟩,
        .rangeReplaced 0x7000 ⟨0x500000, 0x500100⟩ ⟨0x500100, 0x500200⟩] := by
  intro words target u registers s step
  have hscan : ((u.registry target).chain.scan 0x500110).run.value = .ok (some ⟨0x500100, 0x500200⟩) := by rfl
  have hmatch := FunctionChain.value_scan_eq_match_iff.1 hscan
  have hclassifies : u.Classifies (u.registry target).chain registers 0x7000 ⟨0x500100, 0x500200⟩ :=
    ⟨rfl, 0x500110, rfl, hmatch⟩
  have hends : step.value.1 ≠ .error .endless := by
    have hvalue : step.value.1 = .ok (some (u.callerState 0x500190 0x7100)) := by rfl
    simp [hvalue]
  have hlog := (log_tells_what_is_done u target).1 registers s
  exact ⟨hclassifies, ((hlog.matched hends 0x500110 0x7000 ⟨rfl, rfl⟩ _).1 hmatch).2,
    (hlog.bound _ _ hclassifies).2⟩

end JitFrames
