import JitFrames.Proofs.WalkSteps

/-! The limit of a walk. A walk that nothing but its limit has stopped can be taken up again from the last
caller that it has found, and any other comes to the same with room for more. -/
namespace JitFrames

/-- What a walk comes to: the callers or why there are none, and the session that it leaves. -/
abbrev WalkResult := Except Halt (List FrameIdentity) × Session

def WalkResult.behind (callers : List FrameIdentity) : WalkResult → WalkResult
  | (.ok more, s) => (.ok (callers ++ more), s)
  | (.error h, s) => (.error h, s)

@[simp] theorem WalkResult.behind_ok (callers more : List FrameIdentity) (s : Session) :
    behind callers (.ok more, s) = (.ok (callers ++ more), s) := rfl

@[simp] theorem WalkResult.behind_nil (result : WalkResult) : behind [] result = result := by
  obtain ⟨h | callers, s⟩ := result <;> rfl

theorem WalkResult.behind_append (callers more : List FrameIdentity) (result : WalkResult) :
    behind (callers ++ more) result = behind callers (behind more result) := by
  obtain ⟨h | found, s⟩ := result
  · rfl
  · simp [List.append_assoc]

namespace Unwinder

def walkFrom (u : Unwinder) (target : Target) (limit : Nat) (f : FrameIdentity) (s : Session) : WalkResult :=
  ((u.walk target f.programCounter f.stackPointer limit).on s).value

/-- A walk that has found these callers was stopped by its limit alone. -/
def StoppedByLimit (limit : Nat) (callers : List FrameIdentity) : Prop :=
  callers.length = limit ∧ ∀ last ∈ callers.getLast?, last.stackPointer ≠ 0

instance (limit : Nat) (callers : List FrameIdentity) : Decidable (StoppedByLimit limit callers) :=
  inferInstanceAs (Decidable (_ ∧ _))

/-- What a walk from `f` with this limit has come to, taken up again with room for `more` callers. -/
def takeUp (u : Unwinder) (target : Target) (more limit : Nat) (f : FrameIdentity) : WalkResult → WalkResult
  | (.error h, s) => (.error h, s)
  | (.ok callers, s) =>
    if StoppedByLimit limit callers then (u.walkFrom target more (callers.getLastD f) s).behind callers
    else (.ok callers, s)

variable {u : Unwinder} {target : Target}

theorem takeUp_of_stopped {limit : Nat} {callers : List FrameIdentity} (h : StoppedByLimit limit callers)
    (more : Nat) (f : FrameIdentity) (s : Session) : u.takeUp target more limit f (.ok callers, s) =
      (u.walkFrom target more (callers.getLastD f) s).behind callers := if_pos h

theorem takeUp_of_not_stopped {limit : Nat} {callers : List FrameIdentity} (h : ¬ StoppedByLimit limit callers)
    (more : Nat) (f : FrameIdentity) (s : Session) :
    u.takeUp target more limit f (.ok callers, s) = (.ok callers, s) := if_neg h

@[simp] theorem walkFrom_zero (f : FrameIdentity) (s : Session) : u.walkFrom target 0 f s = (.ok [], s) := by
  rw [walkFrom, value_walk]
  rfl

theorem walkFrom_succ (limit : Nat) (f : FrameIdentity) (s : Session) :
    u.walkFrom target (limit + 1) f s =
      match ((u.unwindAt target f).on s).value with
      | (.error h, t) => (.error h, t)
      | (.ok none, t) => (.ok [], t)
      | (.ok (some caller), t) =>
        if caller.id.stackPointer = 0 then (.ok [caller.id], t)
        else (u.walkFrom target limit caller.id t).behind [caller.id] := by
  rw [walkFrom, value_walk, value_callersFrom_succ]
  obtain ⟨h | _ | caller, t⟩ := ((u.unwindAt target f).on s).value
  · rfl
  · rfl
  · dsimp only
    rw [walkFrom, value_walk]
    obtain ⟨h | callers, r⟩ :=
      ((u.callersFrom target limit caller.id.programCounter caller.id.stackPointer).on t).value <;> rfl

theorem stoppedByLimit_cons_iff {limit : Nat} {f : FrameIdentity} {callers : List FrameIdentity}
    (h : f.stackPointer ≠ 0) : StoppedByLimit (limit + 1) (f :: callers) ↔ StoppedByLimit limit callers := by
  cases callers with
  | nil => simp [StoppedByLimit, h, eq_comm]
  | cons caller callers => simp [StoppedByLimit, List.getLast?_cons_cons]

theorem takeUp_behind {caller : FrameIdentity} (h : caller.stackPointer ≠ 0) (more limit : Nat)
    (f : FrameIdentity) (result : WalkResult) :
    u.takeUp target more (limit + 1) f (result.behind [caller]) =
      (u.takeUp target more limit caller result).behind [caller] := by
  obtain ⟨e | callers, s⟩ := result
  · rfl
  · simp only [WalkResult.behind_ok, List.singleton_append, takeUp, stoppedByLimit_cons_iff h,
      List.getLastD_cons]
    by_cases hs : StoppedByLimit limit callers
    · simp only [hs, if_true]
      exact WalkResult.behind_append [caller] callers _
    · simp only [hs, if_false, WalkResult.behind_ok, List.singleton_append]

/-- A walk with a larger limit is one with a smaller limit, taken up again. -/
theorem walkFrom_add (limit more : Nat) (f : FrameIdentity) (s : Session) :
    u.walkFrom target (limit + more) f s = u.takeUp target more limit f (u.walkFrom target limit f s) := by
  -- The first step is the same for both limits, and leads to a frame and a session that are general.
  induction limit generalizing f s with
  | zero => simp [takeUp, StoppedByLimit]
  | succ limit ih =>
    rw [Nat.add_right_comm, walkFrom_succ, walkFrom_succ]
    obtain ⟨h | _ | caller, t⟩ := ((u.unwindAt target f).on s).value
    · rfl
    · simp [takeUp, StoppedByLimit]
    · by_cases hz : caller.id.stackPointer = 0
      · simp [takeUp, StoppedByLimit, hz]
      · simp only [hz, if_false]
        rw [ih, takeUp_behind hz]

theorem length_le_of_walkFrom {limit : Nat} {f : FrameIdentity} {s t : Session} {callers : List FrameIdentity}
    (h : u.walkFrom target limit f s = (.ok callers, t)) : callers.length ≤ limit := by
  induction limit generalizing f s callers with
  | zero =>
    rw [walkFrom_zero] at h
    cases h
    simp
  | succ limit ih =>
    rw [walkFrom_succ] at h
    rcases hu : ((u.unwindAt target f).on s).value with ⟨e | _ | caller, t'⟩ <;> rw [hu] at h
    · cases h
    · cases h
      simp
    · by_cases hz : caller.id.stackPointer = 0
      · simp only [hz, if_true] at h
        cases h
        simp
      · simp only [hz, if_false] at h
        rcases hr : u.walkFrom target limit caller.id t' with ⟨e | rest, r⟩ <;> rw [hr] at h
        · cases h
        · cases h
          have hle := ih hr
          simp only [List.singleton_append, List.length_cons]
          omega

/-- A walk that its limit alone has stopped gives with room for more what a walk from its last caller adds; else
room for more changes nothing. A halt stays under larger limits. -/
theorem limits_compose (u : Unwinder) (target : Target) (start : FrameIdentity) (s : Session) (limit : Nat) :
    let result := fun limit => u.walkFrom target limit start s
    (∀ callers last t, result limit = (.ok callers, t) → callers.length = limit →
      callers.getLast? = some last → last.stackPointer ≠ 0 →
      ∀ more, result (limit + more) = (u.walkFrom target more last t).behind callers) ∧
    (∀ callers t, result limit = (.ok callers, t) →
      callers.length < limit ∨ (∃ last, callers.getLast? = some last ∧ last.stackPointer = 0) →
      ∀ more, result (limit + more) = (.ok callers, t)) ∧
    (∀ more callers r, result (limit + more) = (.ok callers, r) →
      ∃ t, result limit = (.ok (callers.take limit), t)) ∧
    ∀ h t, result limit = (.error h, t) → ∀ more, result (limit + more) = (.error h, t) := by
  intro result
  have hadd : ∀ more, result (limit + more) = u.takeUp target more limit start (result limit) :=
    fun more => walkFrom_add limit more start s
  refine ⟨?_, ?_, ?_, ?_⟩
  · intro callers last t hr hlen hlast hnull more
    have hs : StoppedByLimit limit callers := ⟨hlen, by simpa [hlast] using hnull⟩
    have hd : callers.getLastD start = last := by rw [List.getLastD_eq_getLast?, hlast, Option.getD_some]
    rw [hadd, hr, takeUp_of_stopped hs, hd]
  · intro callers t hr hend more
    have hs : ¬ StoppedByLimit limit callers := by
      rintro ⟨hlen, hnull⟩
      obtain hlt | ⟨last, hlast, hz⟩ := hend
      · omega
      · exact hnull last hlast hz
    rw [hadd, hr, takeUp_of_not_stopped hs]
  · intro more callers r hr
    rw [hadd] at hr
    rcases hl : result limit with ⟨h | first, t⟩
    · rw [hl] at hr
      cases hr
    · have hle : first.length ≤ limit := length_le_of_walkFrom hl
      rw [hl] at hr
      by_cases hs : StoppedByLimit limit first
      · rw [takeUp_of_stopped hs] at hr
        rcases hw : u.walkFrom target more (first.getLastD start) t with ⟨h | found, r'⟩
        · rw [hw] at hr
          cases hr
        · rw [hw] at hr
          cases hr
          exact ⟨t, by rw [← hs.1, List.take_left]⟩
      · rw [takeUp_of_not_stopped hs] at hr
        cases hr
        exact ⟨r, by rw [List.take_of_length_le hle]⟩
  · intro h t hr more
    rw [hadd, hr]
    rfl

end Unwinder
end JitFrames
