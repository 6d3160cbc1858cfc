import JitFrames.FrameFilter
import JitFrames.Proofs.ListRecords
import JitFrames.Proofs.WalkSteps

/-! The session as a record of its history. What an operation does to a session is a sequence of incidents,
which depend on the operation and its sources and never on the session; the cache holds what they have bound
since the last drop. -/
namespace JitFrames

/-- What can happen to a session. -/
inductive Incident
  | bound (key : Addr) (range : CodeRange)
  | cleared
  | resumed (kind : ResumeKind)
  deriving DecidableEq, Repr

namespace Incident

def drops : Incident → Bool
  | .bound .. => false
  | .cleared | .resumed _ => true

def isResume : Incident → Bool
  | .resumed _ => true
  | _ => false

def key? : Incident → Option Addr
  | .bound key _ => some key
  | _ => none

def ofBinding (b : Addr × CodeRange) : Incident := .bound b.1 b.2

theorem bound_mem_map_iff {bs : List (Addr × CodeRange)} {key : Addr} {range : CodeRange} :
    .bound key range ∈ bs.map ofBinding ↔ (key, range) ∈ bs := by
  simp [ofBinding]

theorem drops_of_mem_map {bs : List (Addr × CodeRange)} {i : Incident} (h : i ∈ bs.map ofBinding) :
    i.drops = false := by
  obtain ⟨b, -, rfl⟩ := List.mem_map.1 h
  rfl

def ofEvent? : TargetEvent → Option Incident
  | .resumed kind => some (.resumed kind)
  | .stopped => none

/-- Since the last drop the key has been bound. -/
def BoundSince (history : List Incident) (key : Addr) : Prop :=
  ∃ range, LastBut (·.drops = false) history (.bound key range)

/-- Since the last drop the key has been bound, and the last time to this range. -/
def LastBound (history : List Incident) (key : Addr) (range : CodeRange) : Prop :=
  LastBut (fun i => i.drops = false ∧ i.key? ≠ some key) history (.bound key range)

theorem boundSince_cons_iff {i : Incident} {history : List Incident} {key : Addr} :
    BoundSince (i :: history) key ↔ BoundSince history key ∨
      (∃ range, i = .bound key range) ∧ ∀ j ∈ history, j.drops = false := by
  rw [BoundSince, exists_congr fun _ => lastBut_cons_iff, exists_or, exists_and_right]
  rfl

end Incident

open Incident (BoundSince LastBound)

namespace Session

def suffer (s : Session) : Incident → Session
  | .bound key range => { s with cache := s.cache.insert key range }
  | .cleared => s.forget
  | .resumed _ => { s.forget with epoch := s.epoch + 1 }

def replay (s : Session) (history : List Incident) : Session := history.foldl suffer s

@[simp] theorem replay_nil (s : Session) : s.replay [] = s := rfl

@[simp] theorem replay_cons (s : Session) (i : Incident) (history : List Incident) :
    s.replay (i :: history) = (s.suffer i).replay history := rfl

theorem replay_append (s : Session) (history later : List Incident) :
    s.replay (history ++ later) = (s.replay history).replay later := List.foldl_append

theorem replay_binding (s : Session) (b : Option (Addr × CodeRange)) :
    s.replay (b.toList.map .ofBinding) = s.record b := by
  cases b <;> rfl

variable {s : Session} {key : Addr} {range : CodeRange}

theorem lookup_suffer_iff {i : Incident} :
    (s.suffer i).cache.lookup key = some range ↔ i = .bound key range ∨
      (i.drops = false ∧ i.key? ≠ some key) ∧ s.cache.lookup key = some range := by
  cases i with
  | bound k r =>
    show (s.cache.insert k r).lookup key = some range ↔ _
    rw [FrameCache.lookup_insert]
    by_cases hk : k = key
    · simp [hk, Incident.key?]
    · simp [hk, Incident.key?, Incident.drops]
  | cleared => simp [suffer, forget, Incident.drops]
  | resumed kind => simp [suffer, forget, Incident.drops]

theorem lookup_suffer_ne_none_iff {i : Incident} :
    (s.suffer i).cache.lookup key ≠ none ↔ (∃ range, i = .bound key range) ∨
      i.drops = false ∧ s.cache.lookup key ≠ none := by
  cases i with
  | bound k r =>
    show (s.cache.insert k r).lookup key ≠ none ↔ _
    rw [FrameCache.lookup_insert]
    by_cases hk : k = key <;> simp [hk, Incident.drops]
  | cleared => simp [suffer, forget, Incident.drops]
  | resumed kind => simp [suffer, forget, Incident.drops]

/-- Behind a history the cache holds the last bindings since the last drop, and what was there before where
nothing has been dropped and the key has not been bound. -/
theorem lookup_replay_iff {history : List Incident} :
    (s.replay history).cache.lookup key = some range ↔ LastBound history key range ∨
      (∀ i ∈ history, i.drops = false ∧ i.key? ≠ some key) ∧ s.cache.lookup key = some range := by
  induction history generalizing s with
  | nil => simp [LastBound, not_lastBut_nil]
  | cons i history ih =>
    rw [replay_cons, ih, lookup_suffer_iff, LastBound, LastBound, lastBut_cons_iff, List.forall_mem_cons]
    grind

theorem lookup_replay_ne_none_iff {history : List Incident} :
    (s.replay history).cache.lookup key ≠ none ↔ BoundSince history key ∨
      (∀ i ∈ history, i.drops = false) ∧ s.cache.lookup key ≠ none := by
  induction history generalizing s with
  | nil => simp [BoundSince, not_lastBut_nil]
  | cons i history ih =>
    rw [replay_cons, ih, lookup_suffer_ne_none_iff, Incident.boundSince_cons_iff, List.forall_mem_cons]
    grind

theorem epoch_replay (s : Session) (history : List Incident) :
    (s.replay history).epoch = s.epoch + history.countP Incident.isResume := by
  induction history generalizing s with
  | nil => rfl
  | cons i history ih =>
    rw [replay_cons, ih, List.countP_cons]
    cases i with
    | bound key range => rfl
    | cleared => rfl
    | resumed kind =>
      show s.epoch + 1 + _ = s.epoch + (_ + 1)
      omega

theorem cache_replay_congr {t : Session} (h : s.cache = t.cache) (history : List Incident) :
    (s.replay history).cache = (t.replay history).cache := by
  apply FrameCache.ext_lookup
  intro key
  apply Option.ext
  intro range
  rw [lookup_replay_iff, lookup_replay_iff, h]

end Session

namespace Unwinder

/-- The bindings of a walk in order: one for each frame that it stands on and finds a function for. -/
def callerBindings (u : Unwinder) (target : Target) : Nat → FrameIdentity → List (Addr × CodeRange)
  | 0, _ => []
  | limit + 1, f =>
    let chain := (u.registry target).chain
    let registers := (u.snapshot f.programCounter f.stackPointer).registers
    (u.binding chain registers).toList ++
      match u.answer chain target.memory registers with
      | .ok (some caller) =>
        if caller.id.stackPointer = 0 then [] else u.callerBindings target limit caller.id
      | _ => []

theorem snd_callersFrom (u : Unwinder) (target : Target) (limit : Nat) (f : FrameIdentity) (s : Session) :
    ((u.callersFrom target limit f.programCounter f.stackPointer).on s).value.2 =
      s.replay ((u.callerBindings target limit f).map .ofBinding) := by
  induction limit generalizing f s with
  | zero => rfl
  | succ limit ih =>
    rw [value_callersFrom_succ, value_unwindAt, callerBindings, List.map_append, Session.replay_append,
      Session.replay_binding]
    rcases u.answer (u.registry target).chain target.memory
      (u.snapshot f.programCounter f.stackPointer).registers with e | _ | caller
    · rfl
    · rfl
    · dsimp only
      by_cases hz : caller.id.stackPointer = 0
      · simp only [hz, if_true, List.map_nil, Session.replay_nil]
      · simp only [hz, if_false]
        rw [← ih]
        rcases ((u.callersFrom target limit caller.id.programCounter caller.id.stackPointer).on _).value with
          ⟨_ | _, _⟩ <;> rfl

/-- A walk from `f` takes a step on the frame `g`: the frames before it have non-null callers. -/
inductive StandsOn (u : Unwinder) (target : Target) : Nat → FrameIdentity → FrameIdentity → Prop
  | here (limit : Nat) (f : FrameIdentity) : StandsOn u target (limit + 1) f f
  | next {limit : Nat} {f g : FrameIdentity} {caller : CallerState}
      (found : u.answer (u.registry target).chain target.memory
        (u.snapshot f.programCounter f.stackPointer).registers = .ok (some caller))
      (nonNull : caller.id.stackPointer ≠ 0) (rest : StandsOn u target limit caller.id g) :
      StandsOn u target (limit + 1) f g

theorem mem_callerBindings_iff {u : Unwinder} {target : Target} {limit : Nat} {f : FrameIdentity} {key : Addr}
    {range : CodeRange} : (key, range) ∈ u.callerBindings target limit f ↔ ∃ g, u.StandsOn target limit f g ∧
      u.Classifies (u.registry target).chain (u.snapshot g.programCounter g.stackPointer).registers
        key range := by
  induction limit generalizing f with
  | zero =>
    constructor
    · intro h
      cases h
    · rintro ⟨g, ⟨⟩, -⟩
  | succ limit ih =>
    rw [callerBindings, List.mem_append, Option.mem_toList, binding_eq_some_iff]
    constructor
    · rintro (h | h)
      · exact ⟨f, .here limit f, h⟩
      · split at h
        · rename_i caller found
          by_cases hz : caller.id.stackPointer = 0
          · simp [hz] at h
          · rw [if_neg hz] at h
            obtain ⟨g, hg, hc⟩ := ih.1 h
            exact ⟨g, .next found hz hg, hc⟩
        · cases h
    · rintro ⟨g, hg, hc⟩
      cases hg with
      | here => exact .inl hc
      | next found nonNull rest =>
        refine .inr ?_
        simp only [found, if_neg nonNull]
        exact ih.2 ⟨g, rest, hc⟩

end Unwinder

/-- What a debugger can do with one session, with any unwinder, list, memory, registers and frames. -/
inductive Operation : Type 1
  | unwind (u : Unwinder) (target : Target) (registers : Registers)
  | unwindWith (u : Unwinder) (chain : FunctionChain) (memory : Memory) (registers : Registers)
  | resolve (chain : FunctionChain) (pc key : Addr)
  | walk (u : Unwinder) (target : Target) (pc fp : Addr) (limit : Nat)
  | insert (key : Addr) (range : CodeRange)
  | clear
  | notify (event : TargetEvent)
  | drain (events : List TargetEvent)
  | lookup (key : Addr)
  | decorate {F : Type} [FrameView F] (filter : FrameFilter) (frame : F)
  | decorateAll {F : Type} [FrameView F] (filter : FrameFilter) (frames : List F)

namespace Operation

/-- Asks every question, also after one that has failed. -/
def askAll {α : Type} : List (Query α) → Step Unit
  | [] => return
  | q :: qs => do
    let _ ← q.attempt
    askAll qs

/-- Performs the operation and forgets its answer. -/
def step : Operation → Step Unit
  | .unwind u target registers => discard (u.unwind target registers)
  | .unwindWith u chain memory registers => discard (u.unwindWith chain memory registers)
  | .resolve chain pc key => discard (chain.resolve pc key)
  | .walk u target pc fp limit => discard (u.walk target pc fp limit)
  | .insert key range => Step.update (·.classify key range)
  | .clear => Step.update fun s => pure s.forget
  | .notify event => Step.update (·.notify event)
  | .drain events => Step.update (·.notifyAll events)
  | .lookup key => discard ((·.cache.lookup key) <$> (get : Step Session))
  | @decorate _ _ filter frame => do askAll [filter.decorate (← get).cache frame]
  | @decorateAll _ _ filter frames => do askAll (filter.decorateAll (← get).cache frames)

def incidents : Operation → List Incident
  | .unwind u target registers => (u.binding (u.registry target).chain registers).toList.map .ofBinding
  | .unwindWith u chain _ registers => (u.binding chain registers).toList.map .ofBinding
  | .resolve chain pc key => (chain.binding pc key).toList.map .ofBinding
  | .walk u target pc fp limit => (u.callerBindings target limit ⟨fp, pc⟩).map .ofBinding
  | .insert key range => [.bound key range]
  | .clear => [.cleared]
  | .notify event => (Incident.ofEvent? event).toList
  | .drain events => events.filterMap Incident.ofEvent?
  | .lookup _ | @decorate .. | @decorateAll .. => []

/-- The bindings that an operation makes: those it is given and the classifications in which it succeeds. -/
def Binds : Operation → Addr → CodeRange → Prop
  | .unwind u target registers, key, range => u.Classifies (u.registry target).chain registers key range
  | .unwindWith u chain _ registers, key, range => u.Classifies chain registers key range
  | .resolve chain pc k, key, range => key = k ∧ chain.FirstMatch pc range
  | .walk u target pc fp limit, key, range => ∃ g, u.StandsOn target limit ⟨fp, pc⟩ g ∧
      u.Classifies (u.registry target).chain (u.snapshot g.programCounter g.stackPointer).registers key range
  | .insert k r, key, range => key = k ∧ range = r
  | .clear, _, _ | .notify _, _, _ | .drain _, _, _ => False
  | .lookup _, _, _ | @decorate .., _, _ | @decorateAll .., _, _ => False

def Drops : Operation → Prop
  | .clear => True
  | .notify event => event ≠ .stopped
  | .drain events => ∃ event ∈ events, event ≠ .stopped
  | _ => False

theorem bound_mem_incidents_iff {op : Operation} {key : Addr} {range : CodeRange} :
    .bound key range ∈ op.incidents ↔ op.Binds key range := by
  cases op with
  | unwind u target registers =>
    rw [incidents, Incident.bound_mem_map_iff, Option.mem_toList]
    exact Unwinder.binding_eq_some_iff
  | unwindWith u chain memory registers =>
    rw [incidents, Incident.bound_mem_map_iff, Option.mem_toList]
    exact Unwinder.binding_eq_some_iff
  | resolve chain pc k =>
    rw [incidents, Incident.bound_mem_map_iff, Option.mem_toList]
    exact FunctionChain.binding_eq_some_iff
  | walk u target pc fp limit =>
    rw [incidents, Incident.bound_mem_map_iff]
    exact Unwinder.mem_callerBindings_iff
  | insert k r => simp [incidents, Binds]
  | clear => simp [incidents, Binds]
  | notify event => cases event <;> simp [incidents, Binds, Incident.ofEvent?]
  | drain events =>
    simp only [incidents, Binds, iff_false, List.mem_filterMap]
    rintro ⟨_ | _, -, he⟩ <;> cases he
  | lookup k => simp [incidents, Binds]
  | decorate filter frame => simp [incidents, Binds]
  | decorateAll filter frames => simp [incidents, Binds]

theorem drops_of_mem_incidents {op : Operation} {i : Incident} (hi : i ∈ op.incidents)
    (hd : i.drops = true) : op.Drops := by
  cases op with
  | unwind u target registers => simp [Incident.drops_of_mem_map hi] at hd
  | unwindWith u chain memory registers => simp [Incident.drops_of_mem_map hi] at hd
  | resolve chain pc k => simp [Incident.drops_of_mem_map hi] at hd
  | walk u target pc fp limit => simp [Incident.drops_of_mem_map hi] at hd
  | insert k r =>
    obtain rfl := List.mem_singleton.1 hi
    cases hd
  | clear => trivial
  | notify event =>
    show event ≠ .stopped
    rintro rfl
    cases hi
  | drain events =>
    obtain ⟨event, hm, he⟩ := List.mem_filterMap.1 hi
    refine ⟨event, hm, ?_⟩
    rintro rfl
    cases he
  | lookup k => cases hi
  | decorate filter frame => cases hi
  | decorateAll filter frames => cases hi

theorem incidents_eq_nil {op : Operation} (hbinds : ∀ key range, ¬ op.Binds key range)
    (hdrops : ¬ op.Drops) : op.incidents = [] := by
  rw [List.eq_nil_iff_forall_not_mem]
  intro i hi
  cases i with
  | bound key range => exact hbinds key range (bound_mem_incidents_iff.1 hi)
  | cleared => exact hdrops (drops_of_mem_incidents hi rfl)
  | resumed kind => exact hdrops (drops_of_mem_incidents hi rfl)

end Operation

namespace Session

def perform (s : Session) (op : Operation) : Session := (op.step.on s).value.2

def run (ops : List Operation) : Session := ops.foldl perform {}

theorem value_notify (s : Session) (e : TargetEvent) :
    (s.notify e).value = s.replay (Incident.ofEvent? e).toList := by
  cases e <;> rfl

theorem value_notifyAll (s : Session) (es : List TargetEvent) :
    (s.notifyAll es).value = s.replay (es.filterMap Incident.ofEvent?) := by
  induction es generalizing s with
  | nil => rfl
  | cons e es ih =>
    rw [notifyAll_cons, Traced.value_bind, ih]
    cases e <;> rfl

end Session

theorem Operation.snd_value_askAll {α : Type} (qs : List (Query α)) (s : Session) :
    ((askAll qs).on s).value.2 = s := by
  induction qs with
  | nil => rfl
  | cons q qs ih =>
    rw [askAll, Step.value_query_bind, Query.run_attempt, Traced.value_map]
    exact ih

namespace Session

/-- Every operation does its incidents to the session, and nothing else. -/
theorem perform_eq_replay (s : Session) (op : Operation) : s.perform op = s.replay op.incidents := by
  unfold perform
  cases op with
  | unwind u target registers =>
    rw [Operation.step, Step.snd_value_discard, Unwinder.unwind, Unwinder.value_unwindWith]
    exact (s.replay_binding _).symm
  | unwindWith u chain memory registers =>
    rw [Operation.step, Step.snd_value_discard, Unwinder.value_unwindWith]
    exact (s.replay_binding _).symm
  | resolve chain pc key =>
    rw [Operation.step, Step.snd_value_discard, FunctionChain.value_resolve_eq]
    exact (s.replay_binding _).symm
  | walk u target pc fp limit =>
    rw [Operation.step, Step.snd_value_discard, Unwinder.value_walk]
    exact u.snd_callersFrom target limit ⟨fp, pc⟩ s
  | insert key range =>
    rw [Operation.step, Step.on_update, Traced.value_map]
    exact s.value_classify key range
  | clear =>
    rw [Operation.step, Step.on_update, Traced.value_map]
    rfl
  | notify event =>
    rw [Operation.step, Step.on_update, Traced.value_map]
    exact s.value_notify event
  | drain events =>
    rw [Operation.step, Step.on_update, Traced.value_map]
    exact s.value_notifyAll events
  | lookup key =>
    rw [Operation.step, Step.snd_value_discard]
    rfl
  | decorate filter frame =>
    rw [Operation.step, Step.value_bind]
    exact Operation.snd_value_askAll _ s
  | decorateAll filter frames =>
    rw [Operation.step, Step.value_bind]
    exact Operation.snd_value_askAll _ s

theorem foldl_perform (ops : List Operation) (s : Session) :
    ops.foldl perform s = s.replay (ops.flatMap Operation.incidents) := by
  induction ops generalizing s with
  | nil => rfl
  | cons op ops ih =>
    rw [List.foldl_cons, ih, perform_eq_replay, List.flatMap_cons, replay_append]

theorem perform_of_idle {op : Operation} (hbinds : ∀ key range, ¬ op.Binds key range)
    (hdrops : ¬ op.Drops) (s : Session) : s.perform op = s := by
  rw [perform_eq_replay, Operation.incidents_eq_nil hbinds hdrops, replay_nil]

theorem perform_of_declined {u : Unwinder} {chain : FunctionChain} {memory : Memory} {registers : Registers}
    {s : Session} (h : ((u.unwindWith chain memory registers).on s).value.1 = .ok none) :
    s.perform (.unwindWith u chain memory registers) = s := by
  rw [Unwinder.value_unwindWith] at h
  rw [perform_eq_replay, Operation.incidents, Unwinder.binding_of_answer_none h]
  rfl

theorem cache_run_append_resumed (ops : List Operation) (kind : ResumeKind) (later : List Operation) :
    (run (ops ++ .notify (.resumed kind) :: later)).cache = (run later).cache := by
  unfold run
  rw [List.foldl_append, List.foldl_cons, foldl_perform, foldl_perform later]
  apply cache_replay_congr
  rw [perform_eq_replay]
  rfl

theorem perform_drain (s : Session) (events : List TargetEvent) :
    s.perform (.drain events) = events.foldl (fun t e => t.perform (.notify e)) s := by
  induction events generalizing s with
  | nil => exact perform_eq_replay s (.drain [])
  | cons e events ih =>
    rw [List.foldl_cons, ← ih, perform_eq_replay, perform_eq_replay, perform_eq_replay, ← replay_append]
    cases e <;> rfl

theorem cache_drain_of_resumed {events : List TargetEvent} {kind : ResumeKind}
    (h : .resumed kind ∈ events) (s : Session) : (s.perform (.drain events)).cache = .empty := by
  apply FrameCache.ext_lookup
  intro key
  rw [perform_eq_replay, FrameCache.lookup_empty]
  apply Decidable.byContradiction
  intro hk
  -- A key that is left is bound by an event, which none is, or was there before, which the resume rules out.
  rcases lookup_replay_ne_none_iff.1 hk with ⟨range, before, after, hb, -⟩ | ⟨hkeep, -⟩
  · have hm : Incident.bound key range ∈ (Operation.drain events).incidents := by simp [hb]
    obtain ⟨event, -, he⟩ := List.mem_filterMap.1 hm
    cases event <;> simp [Incident.ofEvent?] at he
  · have hm : Incident.resumed kind ∈ (Operation.drain events).incidents :=
      List.mem_filterMap.2 ⟨.resumed kind, h, rfl⟩
    have hd := hkeep _ hm
    simp [Incident.drops] at hd

/-- After any run the cache answers from what the run has bound since it was last dropped, under each key with
the last range, and the epoch counts the resumes. -/
theorem run_records_history (ops : List Operation) :
    let s := run ops
    let history := ops.flatMap Operation.incidents
    (∀ op : Operation, ∀ key range, .bound key range ∈ op.incidents ↔ op.Binds key range) ∧
    (∀ key range, s.cache.lookup key = some range ↔ LastBound history key range) ∧
    (∃ keys : List Addr, keys.Nodup ∧ (∀ key, key ∈ keys ↔ BoundSince history key) ∧
      s.cache.size = keys.length) ∧
    (s.cache.isEmpty = true ↔ ∀ key, ¬ BoundSince history key) ∧
    s.epoch = history.countP Incident.isResume ∧
    (∀ op : Operation, (∀ key range, ¬ op.Binds key range) → ¬ op.Drops → s.perform op = s) ∧
    (∀ u chain memory registers, ((Unwinder.unwindWith u chain memory registers).on s).value.1 = .ok none →
      s.perform (.unwindWith u chain memory registers) = s) ∧
    (∀ kind later, (run (ops ++ .notify (.resumed kind) :: later)).cache = (run later).cache) ∧
    ∀ events, s.perform (.drain events) = events.foldl (fun t e => t.perform (.notify e)) s ∧
      ((∃ kind, .resumed kind ∈ events) → (s.perform (.drain events)).cache = .empty) := by
  intro s history
  have hs : s = ({} : Session).replay history := foldl_perform ops {}
  have hkey : ∀ key, s.cache.lookup key ≠ none ↔ BoundSince history key := by
    intro key
    rw [hs, lookup_replay_ne_none_iff]
    simp
  have hsize : s.cache.size = s.cache.keys.length := s.cache.length_keys.symm
  refine ⟨fun op key range => Operation.bound_mem_incidents_iff, fun key range => ?_,
    ⟨s.cache.keys, s.cache.nodup_keys, fun key => ?_, hsize⟩, ?_, ?_,
    fun op hbinds hdrops => perform_of_idle hbinds hdrops s,
    fun u chain memory registers => perform_of_declined,
    cache_run_append_resumed ops, fun events => ⟨s.perform_drain events, ?_⟩⟩
  · rw [hs, lookup_replay_iff]
    simp
  · rw [FrameCache.mem_keys_iff, hkey]
  · rw [FrameCache.isEmpty_iff_lookup]
    exact forall_congr' fun key => by rw [← hkey, Decidable.not_not]
  · rw [hs, epoch_replay]
    exact Nat.zero_add _
  · rintro ⟨kind, h⟩
    exact cache_drain_of_resumed h s

end Session
end JitFrames
