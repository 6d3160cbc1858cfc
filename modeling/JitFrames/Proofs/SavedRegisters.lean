import JitFrames.CallerState
import JitFrames.Proofs.ListRecords
import Mathlib.Data.List.Nodup

/-! Registers saved one after another. A save under a name that is listed replaces the value where it stands,
and any other goes to the end, so the listing has each name once, in the order of the first saves. -/
namespace JitFrames

/-- The last of the saves under this name has this value. -/
def SavedLast (saves : List (String × UInt64)) (name : String) (value : UInt64) : Prop :=
  LastBut (·.1 ≠ name) saves (name, value)

/-- The listing that the saves come to: no name twice, the names in the order of their first saves, and with each
the value saved last. -/
structure ListsSaves (saves listing : List (String × UInt64)) : Prop where
  nodup : (listing.map (·.1)).Nodup
  inOrder : (listing.map (·.1)).Pairwise fun m n => (saves.map (·.1)).idxOf m < (saves.map (·.1)).idxOf n
  mem_iff : ∀ name value, (name, value) ∈ listing ↔ SavedLast saves name value

variable {saves : List (String × UInt64)} {name : String} {value : UInt64}

theorem savedLast_concat_iff {s : String × UInt64} :
    SavedLast (saves ++ [s]) name value ↔ if s.1 = name then s.2 = value else SavedLast saves name value := by
  rw [SavedLast, lastBut_concat_iff, Prod.ext_iff]
  by_cases h : s.1 = name
  · simp [h]
  · simp [h, SavedLast]

theorem ListsSaves.unique {l l' : List (String × UInt64)} (h : ListsSaves saves l) (h' : ListsSaves saves l') :
    l = l' := by
  have hperm : l.Perm l' := (List.perm_ext_iff_of_nodup (h.nodup.of_map _) (h'.nodup.of_map _)).2 fun s =>
    (h.mem_iff s.1 s.2).trans (h'.mem_iff s.1 s.2).symm
  have horder := List.pairwise_map.1 h.inOrder
  have horder' := List.pairwise_map.1 h'.inOrder
  exact hperm.eq_of_pairwise (fun a b _ _ hab hba => absurd hab (Nat.lt_asymm hba)) horder horder'

theorem mem_names_saveRegister {n : String} {rs : List (String × UInt64)} :
    n ∈ (saveRegister name value rs).map (·.1) ↔ n = name ∨ n ∈ rs.map (·.1) := by
  rw [map_fst_saveRegister]
  split
  · rename_i h
    constructor
    · exact .inr
    · rintro (rfl | hn)
      · exact h
      · exact hn
  · rw [List.mem_append, List.mem_singleton, or_comm]

/-- A name that is listed keeps its place, and a new one comes behind all that were saved before. -/
theorem inOrder_saveRegister {names : List String} {rs : List (String × UInt64)}
    (hmem : ∀ n, n ∈ rs.map (·.1) ↔ n ∈ names)
    (h : (rs.map (·.1)).Pairwise fun m n => names.idxOf m < names.idxOf n) :
    ((saveRegister name value rs).map (·.1)).Pairwise fun m n =>
      (names ++ [name]).idxOf m < (names ++ [name]).idxOf n := by
  have hplace : ∀ n ∈ rs.map (·.1), (names ++ [name]).idxOf n = names.idxOf n := fun n hn => by
    rw [List.idxOf_append, if_pos ((hmem n).1 hn)]
  have hlisted : (rs.map (·.1)).Pairwise fun m n => (names ++ [name]).idxOf m < (names ++ [name]).idxOf n := by
    refine h.imp_of_mem fun hm hn hlt => ?_
    rwa [hplace _ hm, hplace _ hn]
  rw [map_fst_saveRegister]
  split
  · exact hlisted
  · rename_i hnew
    refine List.pairwise_append.2 ⟨hlisted, List.pairwise_singleton _ _, fun m hm n hn => ?_⟩
    have hm' : m ∈ names := (hmem m).1 hm
    have hn' : name ∉ names := fun hn' => hnew ((hmem name).2 hn')
    rw [List.mem_singleton.1 hn, hplace m hm, List.idxOf_append, if_neg hn']
    exact Nat.lt_of_lt_of_le (List.idxOf_lt_length_of_mem hm') (Nat.le_add_left _ _)

theorem saveRegister_saveRegister (name : String) (v w : UInt64) (rs : List (String × UInt64)) :
    saveRegister name w (saveRegister name v rs) = saveRegister name w rs := by
  induction rs with
  | nil => simp [saveRegister]
  | cons r rs ih => by_cases h : r.1 = name <;> simp [saveRegister, h, ih]

theorem saveRegister_comm {m n : String} (h : m ≠ n) (v w : UInt64) {rs : List (String × UInt64)}
    (hn : n ∈ rs.map (·.1)) :
    saveRegister n w (saveRegister m v rs) = saveRegister m v (saveRegister n w rs) := by
  induction rs with
  | nil => simp at hn
  | cons r rs ih =>
    by_cases hrn : r.1 = n
    · have hrm : r.1 ≠ m := fun hrm => h (hrm.symm.trans hrn)
      simp [saveRegister, hrn, h.symm]
    · have hn' : n ∈ rs.map (·.1) := by simpa [Ne.symm hrn] using hn
      by_cases hrm : r.1 = m
      · simp [saveRegister, hrm, h]
      · simp [saveRegister, hrm, hrn, ih hn']

namespace CallerState

def saveAll (c : CallerState) (saves : List (String × UInt64)) : CallerState :=
  saves.foldl (fun c s => c.save s.1 s.2) c

variable (c : CallerState)

@[simp] theorem saveAll_nil : c.saveAll [] = c := rfl

@[simp] theorem saveAll_cons (s : String × UInt64) (saves : List (String × UInt64)) :
    c.saveAll (s :: saves) = (c.save s.1 s.2).saveAll saves := rfl

theorem saveAll_append (saves more : List (String × UInt64)) :
    c.saveAll (saves ++ more) = (c.saveAll saves).saveAll more := List.foldl_append

theorem saveAll_concat (saves : List (String × UInt64)) (s : String × UInt64) :
    c.saveAll (saves ++ [s]) = (c.saveAll saves).save s.1 s.2 := c.saveAll_append saves [s]

@[simp] theorem id_saveAll (saves : List (String × UInt64)) : (c.saveAll saves).id = c.id := by
  induction saves generalizing c with
  | nil => rfl
  | cons s saves ih => rw [saveAll_cons, ih, id_save]

@[simp] theorem saved_save (name : String) (value : UInt64) :
    (c.save name value).saved = saveRegister name value c.saved := rfl

theorem saved?_eq_some_iff {c : CallerState} : c.saved? name = some value ↔ (name, value) ∈ c.saved :=
  value_find?_key_eq_some_iff c.distinct

theorem saved?_saveAll_iff (id : FrameIdentity) :
    (({ id } : CallerState).saveAll saves).saved? name = some value ↔ SavedLast saves name value := by
  induction saves using List.reverseRecOn with
  | nil => simp [saved?, SavedLast, not_lastBut_nil]
  | append_singleton saves s ih =>
    rw [saveAll_concat, saved?_save, savedLast_concat_iff, ← ih]
    split <;> simp

theorem mem_names_saveAll (id : FrameIdentity) :
    name ∈ (({ id } : CallerState).saveAll saves).saved.map (·.1) ↔ name ∈ saves.map (·.1) := by
  induction saves using List.reverseRecOn with
  | nil => simp
  | append_singleton saves s ih =>
    rw [saveAll_concat, saved_save, mem_names_saveRegister, ih, List.map_append, List.mem_append, or_comm]
    simp

theorem listsSaves_saveAll (id : FrameIdentity) (saves : List (String × UInt64)) :
    ListsSaves saves (({ id } : CallerState).saveAll saves).saved where
  nodup := CallerState.distinct _
  mem_iff name value := by rw [← saved?_eq_some_iff, saved?_saveAll_iff]
  inOrder := by
    induction saves using List.reverseRecOn with
    | nil => simp
    | append_singleton saves s ih =>
      rw [saveAll_concat, saved_save, List.map_append]
      exact inOrder_saveRegister (fun n => mem_names_saveAll id) ih

theorem saved?_eq_none_iff {c : CallerState} : c.saved? name = none ↔ name ∉ c.saved.map (·.1) := by
  simp only [saved?, Option.map_eq_none_iff, List.find?_eq_none, beq_iff_eq, List.mem_map, not_exists, not_and]

theorem save_save (name : String) (v w : UInt64) : (c.save name v).save name w = c.save name w :=
  ext rfl (saveRegister_saveRegister name v w c.saved)

theorem save_comm {m n : String} (h : m ≠ n) (v w : UInt64) (hn : n ∈ c.saved.map (·.1)) :
    (c.save m v).save n w = (c.save n w).save m v :=
  ext rfl (saveRegister_comm h v w hn)

/-- Where the name is listed, a save under it can be made before any others, of which those under the same name
are then left out. -/
theorem saveAll_save {c : CallerState} (hname : name ∈ c.saved.map (·.1)) (between : List (String × UInt64))
    (value : UInt64) :
    (c.saveAll between).save name value = (c.save name value).saveAll (between.filter (·.1 != name)) := by
  induction between generalizing c with
  | nil => rfl
  | cons s between ih =>
    have hs : name ∈ (c.save s.1 s.2).saved.map (·.1) := mem_names_saveRegister.2 (.inr hname)
    rw [saveAll_cons, ih hs]
    by_cases h : s.1 = name
    · rw [List.filter_cons_of_neg (by simpa using h), h, save_save]
    · rw [List.filter_cons_of_pos (by simpa using h), saveAll_cons, c.save_comm h s.2 value hname]

theorem savedLast_iff_filter : SavedLast saves name value ↔ SavedLast (saves.filter (·.1 == name)) name value :=
  (lastBut_filter_iff (by simp) (by simp)).symm

/-- After any saves each name is listed once, in the order of the first saves, with the value saved last. Saves
under different names commute up to the order of the listing. -/
theorem lists_saved_registers (id : FrameIdentity) (saves : List (String × UInt64)) :
    let fresh : CallerState := { id }
    let caller := fresh.saveAll saves
    caller.id = id ∧
    (∀ listing, caller.saved = listing ↔ ListsSaves saves listing) ∧
    (∀ name value, caller.saved? name = some value ↔ SavedLast saves name value) ∧
    (∀ name, caller.saved? name = none ↔ ∀ s ∈ saves, s.1 ≠ name) ∧
    (∀ others : List (String × UInt64),
      (∀ name, others.filter (·.1 == name) = saves.filter (·.1 == name)) →
      (fresh.saveAll others).saved.Perm caller.saved ∧
        ∀ name, (fresh.saveAll others).saved? name = caller.saved? name) ∧
    ∀ before between after name v w, saves = before ++ (name, v) :: between ++ (name, w) :: after →
      caller = fresh.saveAll (before ++ (name, w) :: between.filter (·.1 != name) ++ after) := by
  intro fresh caller
  have hlists : ListsSaves saves caller.saved := listsSaves_saveAll id saves
  refine ⟨id_saveAll fresh saves, fun listing => ?_, fun name value => saved?_saveAll_iff id, fun name => ?_,
    fun others hothers => ?_, ?_⟩
  · constructor
    · rintro rfl
      exact hlists
    · exact hlists.unique
  · rw [saved?_eq_none_iff, mem_names_saveAll]
    simp only [List.mem_map, not_exists, not_and, ne_eq]
  · have hlast : ∀ name value, SavedLast others name value ↔ SavedLast saves name value := fun name value => by
      rw [savedLast_iff_filter, hothers, ← savedLast_iff_filter]
    have hlists' := listsSaves_saveAll id others
    constructor
    · refine (List.perm_ext_iff_of_nodup (hlists'.nodup.of_map _) (hlists.nodup.of_map _)).2 fun s => ?_
      rw [hlists'.mem_iff, hlists.mem_iff, hlast]
    · intro name
      refine Option.ext fun value => ?_
      rw [saved?_saveAll_iff, saved?_saveAll_iff, hlast]
  · rintro before between after name v w rfl
    have hname : name ∈ ((fresh.saveAll before).save name v).saved.map (·.1) :=
      mem_names_saveRegister.2 (.inl rfl)
    calc caller = ((((fresh.saveAll before).save name v).saveAll between).save name w).saveAll after := by
          simp only [caller, saveAll_append, saveAll_cons]
      _ = (((fresh.saveAll before).save name w).saveAll (between.filter (·.1 != name))).saveAll after := by
          rw [saveAll_save hname, save_save]
      _ = fresh.saveAll (before ++ (name, w) :: between.filter (·.1 != name) ++ after) := by
          simp only [saveAll_append, saveAll_cons, List.append_assoc, List.cons_append]

/-- Names are told apart by case, and an empty one is a name. -/
example : (({ id := ⟨0, 0⟩ } : CallerState).saveAll [("rip", 1), ("RIP", 2), ("", 3), ("rip", 4)]).saved =
    [("rip", 4), ("RIP", 2), ("", 3)] := by decide

end CallerState
end JitFrames
