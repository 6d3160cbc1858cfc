import JitFrames.Proofs.SessionHistory

/-! Unwinding writes to the session and never reads it. The answer of a step, and of a walk, comes from the
sources alone; what a run of steps leaves depends on which steps there are and not on their order. -/
namespace JitFrames

namespace Operation

/-- The answer of an unwind step on a session; there is none for the other operations. -/
def answer? : Operation → Session → Option (Except Halt (Option CallerState))
  | .unwind u target registers, s => some ((u.unwind target registers).on s).value.1
  | .unwindWith u chain memory registers, s => some ((u.unwindWith chain memory registers).on s).value.1
  | _, _ => none

theorem answer?_eq (op : Operation) (s t : Session) : op.answer? s = op.answer? t := by
  cases op with
  | unwind u target registers =>
    simp only [answer?, Unwinder.unwind, Unwinder.value_unwindWith]
  | unwindWith u chain memory registers =>
    simp only [answer?, Unwinder.value_unwindWith]
  | resolve | walk | insert | clear | notify | drain | lookup | decorate | decorateAll => rfl

end Operation

namespace Session

/-- The operations of a run, each with its answer on the session that it meets there. -/
def answers (s : Session) : List Operation → List (Operation × Option (Except Halt (Option CallerState)))
  | [] => []
  | op :: ops => (op, op.answer? s) :: (s.perform op).answers ops

theorem answers_eq_map (s t : Session) (ops : List Operation) :
    s.answers ops = ops.map fun op => (op, op.answer? t) := by
  induction ops generalizing s with
  | nil => rfl
  | cons op ops ih =>
    have hop : op.answer? s = op.answer? t := op.answer?_eq s t
    have hops := ih (s.perform op)
    rw [answers, List.map_cons, hop, hops]

theorem answers_perm (s t : Session) {ops ops' : List Operation} (h : ops.Perm ops') :
    (s.answers ops).Perm (t.answers ops') := by
  have hs := s.answers_eq_map t ops
  have ht := t.answers_eq_map t ops'
  rw [hs, ht]
  exact h.map _

theorem eq_of_lookup {s t : Session} (hl : ∀ key, s.cache.lookup key = t.cache.lookup key)
    (he : s.epoch = t.epoch) : s = t := by
  have hc : s.cache = t.cache := FrameCache.ext_lookup hl
  cases s
  cases t
  simp_all

/-- Where no two incidents bind a key to different ranges, the bindings of a history can be read off it
without regard to their order. -/
theorem lookup_replay_iff_mem {s : Session} {history : List Incident} {key : Addr} {range : CodeRange}
    (hdrops : ∀ i ∈ history, i.drops = false)
    (hagree : ∀ r r', .bound key r ∈ history → .bound key r' ∈ history → r = r') :
    (s.replay history).cache.lookup key = some range ↔ .bound key range ∈ history ∨
      (∀ r, .bound key r ∉ history) ∧ s.cache.lookup key = some range := by
  rw [lookup_replay_iff]
  constructor
  · rintro (⟨before, after, rfl, -⟩ | ⟨hkept, hs⟩)
    · exact .inl (by simp)
    · have hnone : ∀ r, Incident.bound key r ∉ history := fun r hr => (hkept _ hr).2 rfl
      exact .inr ⟨hnone, hs⟩
  · rintro (hm | ⟨hnone, hs⟩)
    · -- The last binding of the key has this range, because every binding of it has.
      have hb : (s.replay history).cache.lookup key ≠ none := by
        obtain ⟨before, after, rfl⟩ := List.append_of_mem hm
        have hafter : ∀ i ∈ after, i.drops = false := fun i hi => hdrops i (by simp [hi])
        exact lookup_replay_ne_none_iff.2 (.inl ⟨range, before, after, rfl, hafter⟩)
      obtain ⟨r, hr⟩ := Option.ne_none_iff_exists'.1 hb
      rcases lookup_replay_iff.1 hr with hlast | ⟨hkept, -⟩
      · obtain ⟨before, after, hh, hafter⟩ := hlast
        have hrr : r = range := hagree r range (by simp [hh]) hm
        subst hrr
        exact .inl ⟨before, after, hh, hafter⟩
      · exact absurd rfl (hkept _ hm).2
    · refine .inr ⟨fun i hi => ⟨hdrops i hi, fun hk => ?_⟩, hs⟩
      cases i with
      | bound k r =>
        have hkey : k = key := Option.some.inj hk
        exact hnone r (hkey ▸ hi)
      | cleared => cases hk
      | resumed kind => cases hk

theorem epoch_replay_of_kept (s : Session) {history : List Incident} (h : ∀ i ∈ history, i.drops = false) :
    (s.replay history).epoch = s.epoch := by
  have hcount : history.countP Incident.isResume = 0 := by
    rw [List.countP_eq_zero]
    intro i hi
    have hd := h i hi
    cases i <;> simp_all [Incident.drops, Incident.isResume]
  rw [epoch_replay, hcount, Nat.add_zero]

theorem drops_of_mem_flatMap {ops : List Operation} (h : ∀ op ∈ ops, ¬ op.Drops) {i : Incident}
    (hi : i ∈ ops.flatMap Operation.incidents) : i.drops = false := by
  obtain ⟨op, hop, hio⟩ := List.mem_flatMap.1 hi
  have hd : ¬ i.drops = true := fun hd => h op hop (Operation.drops_of_mem_incidents hio hd)
  simpa using hd

theorem bound_mem_flatMap_iff {ops : List Operation} {key : Addr} {range : CodeRange} :
    .bound key range ∈ ops.flatMap Operation.incidents ↔ ∃ op ∈ ops, op.Binds key range := by
  rw [List.mem_flatMap]
  exact exists_congr fun op => and_congr_right fun _ => Operation.bound_mem_incidents_iff

/-- Two runs of the same operations, in whatever order and however often each, leave the same session. -/
theorem foldl_perform_congr {ops ops' : List Operation} (s : Session) (hsame : ∀ op, op ∈ ops ↔ op ∈ ops')
    (hdrops : ∀ op ∈ ops, ¬ op.Drops)
    (hagree : ∀ a ∈ ops, ∀ b ∈ ops, ∀ key r r', a.Binds key r → b.Binds key r' → r = r') :
    ops.foldl perform s = ops'.foldl perform s := by
  have hdrops' : ∀ op ∈ ops', ¬ op.Drops := fun op hop => hdrops op ((hsame op).2 hop)
  have hbinds : ∀ key range, (∃ op ∈ ops, op.Binds key range) ↔ ∃ op ∈ ops', op.Binds key range :=
    fun key range => exists_congr fun op => and_congr_left fun _ => hsame op
  have hunique : ∀ key r r', (∃ op ∈ ops, op.Binds key r) → (∃ op ∈ ops, op.Binds key r') → r = r' := by
    rintro key r r' ⟨a, ha, har⟩ ⟨b, hb, hbr⟩
    exact hagree a ha b hb key r r' har hbr
  rw [foldl_perform, foldl_perform]
  apply eq_of_lookup
  · intro key
    apply Option.ext
    intro range
    rw [lookup_replay_iff_mem (fun _ => drops_of_mem_flatMap hdrops),
      lookup_replay_iff_mem (fun _ => drops_of_mem_flatMap hdrops')]
    · simp only [bound_mem_flatMap_iff, hbinds]
    · simp only [bound_mem_flatMap_iff, ← hbinds]
      exact hunique key
    · simp only [bound_mem_flatMap_iff]
      exact hunique key
  · rw [epoch_replay_of_kept s fun _ => drops_of_mem_flatMap hdrops,
      epoch_replay_of_kept s fun _ => drops_of_mem_flatMap hdrops']

theorem record_record_of_key (s : Session) (key : Addr) (r r' : CodeRange) :
    (s.record (some (key, r))).record (some (key, r')) = s.record (some (key, r')) := by
  have hl : ∀ k, ((s.record (some (key, r))).record (some (key, r'))).cache.lookup k =
      (s.record (some (key, r'))).cache.lookup k := by
    intro k
    rw [lookup_record_some, lookup_record_some, lookup_record_some]
    by_cases hk : key = k <;> simp [hk]
  exact eq_of_lookup hl rfl

theorem record_record (s : Session) (b : Option (Addr × CodeRange)) : (s.record b).record b = s.record b := by
  rcases b with _ | ⟨key, range⟩
  · rfl
  · exact s.record_record_of_key key range range

theorem perform_unwindWith_twice (s : Session) (u : Unwinder) (chain : FunctionChain) (memory : Memory)
    (registers : Registers) :
    (s.perform (.unwindWith u chain memory registers)).perform (.unwindWith u chain memory registers) =
      s.perform (.unwindWith u chain memory registers) := by
  simp only [perform_eq_replay, Operation.incidents, replay_binding]
  exact s.record_record _

end Session

namespace Unwinder

theorem fst_callersFrom_succ (u : Unwinder) (target : Target) (limit : Nat) (f : FrameIdentity) (s : Session) :
    ((u.callersFrom target (limit + 1) f.programCounter f.stackPointer).on s).value.1 =
      match ((u.unwindAt target f).on s).value with
      | (.error h, _) => .error h
      | (.ok none, _) => .ok []
      | (.ok (some caller), t) =>
        if caller.id.stackPointer = 0 then .ok [caller.id]
        else
          ((u.callersFrom target limit caller.id.programCounter caller.id.stackPointer).on t).value.1.map
            (caller.id :: ·) := by
  rw [value_callersFrom_succ]
  rcases ((u.unwindAt target f).on s).value with ⟨h | _ | caller, t⟩
  · rfl
  · rfl
  · dsimp only
    by_cases hz : caller.id.stackPointer = 0
    · simp only [hz, if_true]
    · simp only [hz, if_false]
      rcases ((u.callersFrom target limit caller.id.programCounter caller.id.stackPointer).on t).value with
        ⟨_ | callers, r⟩ <;> rfl

theorem fst_callersFrom_eq (u : Unwinder) (target : Target) (limit : Nat) (f : FrameIdentity)
    (s t : Session) :
    ((u.callersFrom target limit f.programCounter f.stackPointer).on s).value.1 =
      ((u.callersFrom target limit f.programCounter f.stackPointer).on t).value.1 := by
  -- The two sessions stay apart on the way, so both are general.
  induction limit generalizing f s t with
  | zero => rfl
  | succ limit ih =>
    rw [fst_callersFrom_succ, fst_callersFrom_succ, value_unwindAt, value_unwindAt]
    rcases u.answer (u.registry target).chain target.memory
      (u.snapshot f.programCounter f.stackPointer).registers with e | _ | caller
    · rfl
    · rfl
    · dsimp only
      rw [ih caller.id _ (t.record _)]

theorem fst_walk_eq (u : Unwinder) (target : Target) (pc fp : Addr) (limit : Nat) (s t : Session) :
    ((u.walk target pc fp limit).on s).value.1 = ((u.walk target pc fp limit).on t).value.1 := by
  rw [value_walk, value_walk]
  exact u.fst_callersFrom_eq target limit ⟨fp, pc⟩ s t

end Unwinder

namespace Session

/-- A step or a walk answers the same on every session and at every place of a run. Operations that drop nothing
and agree on each range leave one session in whatever order. -/
theorem unwinding_ignores_session :
    (∀ (u : Unwinder) (target : Target) (registers : Registers) (s t : Session),
      ((u.unwind target registers).on s).value.1 = ((u.unwind target registers).on t).value.1) ∧
    (∀ (ops : List Operation) (s t : Session), s.answers ops = ops.map fun op => (op, op.answer? t)) ∧
    (∀ (ops ops' : List Operation) (s t : Session), ops.Perm ops' → (s.answers ops).Perm (t.answers ops')) ∧
    (∀ (ops ops' : List Operation) (s : Session), (∀ op, op ∈ ops ↔ op ∈ ops') →
      (∀ op ∈ ops, ¬ op.Drops) →
      (∀ a ∈ ops, ∀ b ∈ ops, ∀ key r r', a.Binds key r → b.Binds key r' → r = r') →
      ops.foldl perform s = ops'.foldl perform s) ∧
    (∀ (u : Unwinder) (target : Target) (registers : Registers) (s : Session),
      let again := Operation.unwind u target registers
      (s.perform again).perform again = s.perform again) ∧
    ∀ (u : Unwinder) (target : Target) (pc fp : Addr) (limit : Nat) (s t : Session),
      ((u.walk target pc fp limit).on s).value.1 = ((u.walk target pc fp limit).on t).value.1 := by
  refine ⟨fun u target registers s t => ?_, fun ops s t => s.answers_eq_map t ops,
    fun ops ops' s t h => s.answers_perm t h,
    fun ops ops' s hsame hdrops hagree => foldl_perform_congr s hsame hdrops hagree,
    fun u target registers s => ?_, Unwinder.fst_walk_eq⟩
  · simp only [Unwinder.unwind, Unwinder.value_unwindWith]
  · exact s.perform_unwindWith_twice u (u.registry target).chain target.memory registers

end Session
end JitFrames
