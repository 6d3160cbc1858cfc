import JitFrames.Trace

/-! Named extensions in the order in which they are tried: highest priority first and, among equals, the one
registered first. A name stands for one extension, and registering it again gives up its former place. -/
namespace JitFrames

structure Extension (α : Type) where
  name : String
  priority : Int
  value : α
  deriving DecidableEq, Repr

variable {α : Type}

/-- Goes in front of the first extension of smaller priority. -/
def insertByPriority (e : Extension α) : List (Extension α) → List (Extension α)
  | [] => [e]
  | d :: ds => if d.priority < e.priority then e :: d :: ds else d :: insertByPriority e ds

theorem perm_insertByPriority (e : Extension α) (es : List (Extension α)) :
    (insertByPriority e es).Perm (e :: es) := by
  induction es with
  | nil => exact .refl _
  | cons d ds ih =>
    simp only [insertByPriority]
    split
    · exact .refl _
    · exact (ih.cons d).trans (.swap e d ds)

theorem pairwise_insertByPriority (e : Extension α) {es : List (Extension α)}
    (h : es.Pairwise (·.priority ≥ ·.priority)) :
    (insertByPriority e es).Pairwise (·.priority ≥ ·.priority) := by
  induction es with
  | nil => simp [insertByPriority]
  | cons d ds ih =>
    have hd := List.pairwise_cons.1 h
    simp only [insertByPriority]
    split
    · rename_i hlt
      refine List.pairwise_cons.2 ⟨fun c hc => ?_, h⟩
      rcases List.mem_cons.1 hc with rfl | hc
      · exact Int.le_of_lt hlt
      · exact Int.le_trans (hd.1 c hc) (Int.le_of_lt hlt)
    · rename_i hle
      refine List.pairwise_cons.2 ⟨fun c hc => ?_, ih hd.2⟩
      rcases List.mem_cons.1 ((perm_insertByPriority e ds).mem_iff.1 hc) with rfl | hc
      · exact Int.not_lt.1 hle
      · exact hd.1 c hc

theorem find?_insertByPriority_of_ne {e : Extension α} {name : String} (es : List (Extension α))
    (h : e.name ≠ name) : (insertByPriority e es).find? (·.name == name) = es.find? (·.name == name) := by
  induction es with
  | nil => simp [insertByPriority, h]
  | cons d ds ih =>
    simp only [insertByPriority]
    split
    · simp [h]
    · simp only [List.find?_cons, ih]

theorem find?_insertByPriority_self {e : Extension α} {es : List (Extension α)}
    (h : e.name ∉ es.map (·.name)) : (insertByPriority e es).find? (·.name == e.name) = some e := by
  induction es with
  | nil => simp [insertByPriority]
  | cons d ds ih =>
    simp only [List.map_cons, List.mem_cons, not_or] at h
    simp only [insertByPriority]
    split
    · simp
    · simp [Ne.symm h.1, ih h.2]

/-- Extensions that the inserted one is not among stay as they were. -/
theorem filter_insertByPriority_of_neg (q : Extension α → Bool) {e : Extension α} (h : q e = false)
    (es : List (Extension α)) : (insertByPriority e es).filter q = es.filter q := by
  induction es with
  | nil => simp [insertByPriority, h]
  | cons d ds ih =>
    simp only [insertByPriority]
    split
    · simp [h]
    · simp only [List.filter_cons, ih]

/-- Where the names are distinct, the first of a name is all that has it. -/
theorem eraseP_name_eq_filter {es : List (Extension α)} (h : (es.map (·.name)).Nodup) (name : String) :
    es.eraseP (·.name == name) = es.filter (·.name != name) := by
  induction es with
  | nil => rfl
  | cons e es ih =>
    obtain ⟨he, hes⟩ := List.nodup_cons.1 h
    by_cases hn : e.name = name
    · have hother : es.filter (·.name != name) = es := by
        refine List.filter_eq_self.2 fun d hd => ?_
        have hdn : d.name ≠ name := fun hdn => he (List.mem_map.2 ⟨d, hd, hdn.trans hn.symm⟩)
        simpa using hdn
      rw [List.eraseP_cons_of_pos (by simpa using hn), List.filter_cons_of_neg (by simpa using hn), hother]
    · rw [List.eraseP_cons_of_neg (by simpa using hn), List.filter_cons_of_pos (by simpa using hn), ih hes]

structure ExtensionTable (α : Type) where
  entries : List (Extension α)
  distinct : (entries.map (·.name)).Nodup
  descending : entries.Pairwise (·.priority ≥ ·.priority)

namespace ExtensionTable

@[ext] theorem ext {t u : ExtensionTable α} (h : t.entries = u.entries) : t = u := by
  cases t; cases u; simp_all

def empty : ExtensionTable α := ⟨[], .nil, .nil⟩

instance : Inhabited (ExtensionTable α) := ⟨empty⟩

def find? (t : ExtensionTable α) (name : String) : Option α :=
  (t.entries.find? (·.name == name)).map (·.value)

/-- Names and extensions in order. -/
def toList (t : ExtensionTable α) : List (String × α) := t.entries.map fun e => (e.name, e.value)

def size (t : ExtensionTable α) : Nat := t.entries.length

def isEmpty (t : ExtensionTable α) : Bool := t.entries.isEmpty

/-- Takes out the first extension of that name. -/
def erase (t : ExtensionTable α) (name : String) : ExtensionTable α where
  entries := t.entries.eraseP (·.name == name)
  distinct := t.distinct.sublist (List.eraseP_sublist.map _)
  descending := t.descending.sublist List.eraseP_sublist

theorem entries_erase (t : ExtensionTable α) (name : String) :
    (t.erase name).entries = t.entries.filter (·.name != name) := eraseP_name_eq_filter t.distinct name

theorem name_notMem_erase (t : ExtensionTable α) (name : String) :
    name ∉ (t.erase name).entries.map (·.name) := by
  simp [entries_erase]

/-- The table with the extension in its place, behind its equals. -/
def insert (t : ExtensionTable α) (name : String) (priority : Int) (value : α) : ExtensionTable α where
  entries := insertByPriority ⟨name, priority, value⟩ (t.erase name).entries
  distinct :=
    ((perm_insertByPriority _ _).map _).nodup_iff.2
      (List.nodup_cons.2 ⟨t.name_notMem_erase name, (t.erase name).distinct⟩)
  descending := pairwise_insertByPriority _ (t.erase name).descending

/-- Gives also the extension that had the name before. -/
def register (t : ExtensionTable α) (name : String) (priority : Int) (value : α) :
    Traced (Option α × ExtensionTable α) := do
  let old := t.find? name
  if old.isSome then log (.extensionReplaced name)
  return (old, t.insert name priority value)

/-- Gives also the extension that has been taken out. -/
def unregister (t : ExtensionTable α) (name : String) : Option α × ExtensionTable α :=
  (t.find? name, t.erase name)

/-- Changes the extension of that name where it stands. -/
def modify (t : ExtensionTable α) (name : String) (f : α → α) : ExtensionTable α where
  entries := t.entries.map fun e => if e.name = name then { e with value := f e.value } else e
  distinct := by
    have h : (fun e : Extension α => e.name) ∘
        (fun e => if e.name = name then { e with value := f e.value } else e) = (·.name) := by
      funext e
      simp only [Function.comp]
      split <;> rfl
    simpa only [List.map_map, h] using t.distinct
  descending := by
    refine List.pairwise_map.2 (t.descending.imp fun {a b} h => ?_)
    split <;> split <;> exact h

@[simp] theorem find?_empty (name : String) : (empty : ExtensionTable α).find? name = none := rfl

theorem find?_erase (t : ExtensionTable α) (name n : String) :
    (t.erase name).find? n = if name = n then none else t.find? n := by
  simp only [find?, entries_erase, List.find?_filter]
  split
  · rename_i h
    simp [h]
  · rename_i h
    congr 2
    funext e
    by_cases he : e.name = n <;> simp [he, Ne.symm h]

theorem find?_insert (t : ExtensionTable α) (name n : String) (priority : Int) (value : α) :
    (t.insert name priority value).find? n = if name = n then some value else t.find? n := by
  by_cases h : name = n
  · subst h
    have hf := @find?_insertByPriority_self _ ⟨name, priority, value⟩ _ (t.name_notMem_erase name)
    simp only [find?, insert, if_true]
    exact congrArg (Option.map (·.value)) hf
  · have he := t.find?_erase name n
    rw [if_neg h] at he ⊢
    rw [← he]
    have hf := @find?_insertByPriority_of_ne _ ⟨name, priority, value⟩ n (t.erase name).entries h
    exact congrArg (Option.map (·.value)) hf

theorem find?_modify (t : ExtensionTable α) (name n : String) (f : α → α) :
    (t.modify name f).find? n = if name = n then (t.find? n).map f else t.find? n := by
  simp only [find?, modify]
  induction t.entries with
  | nil => simp
  | cons e es ih => by_cases he : e.name = name <;> by_cases hn : e.name = n <;> grind

@[simp] theorem value_register (t : ExtensionTable α) (name : String) (priority : Int) (value : α) :
    (t.register name priority value).value = (t.find? name, t.insert name priority value) := by
  simp only [register]
  split <;> rfl

theorem map_fst_toList (t : ExtensionTable α) : t.toList.map (·.1) = t.entries.map (·.name) := List.map_map

theorem length_toList (t : ExtensionTable α) : t.toList.length = t.size := by simp [toList, size]

theorem isEmpty_iff {t : ExtensionTable α} : t.isEmpty = true ↔ t.size = 0 := by simp [isEmpty, size]

end ExtensionTable
end JitFrames
