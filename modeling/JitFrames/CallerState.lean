import JitFrames.Addr

/-! What one unwind step recovers of the caller: the identity of its frame and the registers saved for it.
Each register is listed once, in the order of its first saving, with the value saved last. -/
namespace JitFrames

structure FrameIdentity where
  stackPointer : Addr
  programCounter : Addr
  deriving DecidableEq, Repr

/-- Replaces a value in place, or adds the register at the end. -/
def saveRegister (name : String) (value : UInt64) : List (String × UInt64) → List (String × UInt64)
  | [] => [(name, value)]
  | r :: rs => if r.1 = name then (name, value) :: rs else r :: saveRegister name value rs

theorem map_fst_saveRegister (name : String) (value : UInt64) (rs : List (String × UInt64)) :
    (saveRegister name value rs).map (·.1) =
      if name ∈ rs.map (·.1) then rs.map (·.1) else rs.map (·.1) ++ [name] := by
  induction rs with
  | nil => rfl
  | cons r rs ih =>
    by_cases h : r.1 = name
    · simp [saveRegister, h]
    · have h' : name ≠ r.1 := Ne.symm h
      by_cases hm : name ∈ rs.map (·.1) <;> simp_all [saveRegister]

theorem nodup_saveRegister (name : String) (value : UInt64) {rs : List (String × UInt64)}
    (h : (rs.map (·.1)).Nodup) : ((saveRegister name value rs).map (·.1)).Nodup := by
  rw [map_fst_saveRegister]
  split
  · exact h
  · rename_i hm
    refine List.nodup_append.2 ⟨h, by simp, fun a ha b hb => ?_⟩
    rintro rfl
    exact hm ((List.mem_singleton.1 hb) ▸ ha)

structure CallerState where
  id : FrameIdentity
  saved : List (String × UInt64) := []
  distinct : (saved.map (·.1)).Nodup := by exact List.nodup_nil

namespace CallerState

@[ext] theorem ext {c d : CallerState} (hi : c.id = d.id) (hs : c.saved = d.saved) : c = d := by
  cases c; cases d; simp_all

def save (c : CallerState) (name : String) (value : UInt64) : CallerState :=
  ⟨c.id, saveRegister name value c.saved, nodup_saveRegister name value c.distinct⟩

def saved? (c : CallerState) (name : String) : Option UInt64 :=
  (c.saved.find? (·.1 == name)).map (·.2)

@[simp] theorem id_save (c : CallerState) (name : String) (value : UInt64) :
    (c.save name value).id = c.id := rfl

theorem find?_saveRegister (name n : String) (value : UInt64) (rs : List (String × UInt64)) :
    (saveRegister name value rs).find? (·.1 == n) =
      if name = n then some (name, value) else rs.find? (·.1 == n) := by
  induction rs with
  | nil => by_cases h : name = n <;> simp [saveRegister, h]
  | cons r rs ih => by_cases h : name = n <;> grind [saveRegister]

theorem saved?_save (c : CallerState) (name n : String) (value : UInt64) :
    (c.save name value).saved? n = if name = n then some value else c.saved? n := by
  simp only [saved?, save, find?_saveRegister]
  split <;> rfl

end CallerState
end JitFrames
