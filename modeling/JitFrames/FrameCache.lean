import JitFrames.Trace

/-! The ranges of classified frames, keyed by the frame pointer that each frame had. The entries are kept in
strictly ascending order of their keys, so two caches that answer every lookup alike are equal. -/
namespace JitFrames

/-- Binds `key` in an ascending list; the last binding of a key is the one that stays. -/
def bindAscending (key : Addr) (range : CodeRange) : List (Addr × CodeRange) → List (Addr × CodeRange)
  | [] => [(key, range)]
  | e :: es =>
    if key < e.1 then (key, range) :: e :: es
    else if key = e.1 then (key, range) :: es
    else e :: bindAscending key range es

theorem mem_bindAscending {key : Addr} {range : CodeRange} {es : List (Addr × CodeRange)}
    {e : Addr × CodeRange} (h : e ∈ bindAscending key range es) : e.1 = key ∨ e ∈ es := by
  induction es with
  | nil => simp_all [bindAscending]
  | cons d es ih =>
    simp only [bindAscending] at h
    split at h
    · simp_all only [List.mem_cons]
      exact h.imp_left fun he => by rw [he]
    · split at h
      · simp_all only [List.mem_cons]
        exact h.imp (fun he => by rw [he]) .inr
      · simp_all only [List.mem_cons]
        rcases h with he | he
        · exact .inr (.inl he)
        · exact (ih he).imp_right .inr

theorem pairwise_bindAscending (key : Addr) (range : CodeRange) {es : List (Addr × CodeRange)}
    (h : es.Pairwise (·.1 < ·.1)) : (bindAscending key range es).Pairwise (·.1 < ·.1) := by
  induction es with
  | nil => simp [bindAscending]
  | cons e es ih =>
    have he := List.pairwise_cons.1 h
    simp only [bindAscending]
    split
    · rename_i hlt
      refine List.pairwise_cons.2 ⟨fun d hd => ?_, h⟩
      rcases List.mem_cons.1 hd with rfl | hd
      · exact hlt
      · exact UInt64.lt_trans hlt (he.1 d hd)
    · split
      · rename_i heq
        exact List.pairwise_cons.2 ⟨fun d hd => by simpa [heq] using he.1 d hd, he.2⟩
      · rename_i hlt hne
        refine List.pairwise_cons.2 ⟨fun d hd => ?_, ih he.2⟩
        rcases mem_bindAscending hd with hk | hd
        · rw [hk]
          exact UInt64.lt_of_le_of_ne (UInt64.not_lt.1 hlt) (Ne.symm hne)
        · exact he.1 d hd

theorem find?_eq_none_of_forall_lt {key : Addr} {es : List (Addr × CodeRange)} (h : ∀ e ∈ es, key < e.1) :
    es.find? (·.1 == key) = none := by
  rw [List.find?_eq_none]
  intro e he
  simpa using fun hk : e.1 = key => UInt64.lt_irrefl key (hk ▸ h e he)

theorem not_lt_of_find?_eq {e d : Addr × CodeRange} {es ds : List (Addr × CodeRange)}
    (hd : ∀ c ∈ ds, d.1 < c.1) (h : (e :: es).find? (·.1 == e.1) = (d :: ds).find? (·.1 == e.1)) :
    ¬ e.1 < d.1 := by
  intro hlt
  have hn : (d :: ds).find? (·.1 == e.1) = none := find?_eq_none_of_forall_lt fun c hc => by
    rcases List.mem_cons.1 hc with rfl | hc
    · exact hlt
    · exact UInt64.lt_trans hlt (hd c hc)
  simp [hn] at h

/-- An ascending list is determined by what is found in it. -/
theorem eq_of_find?_eq {es ds : List (Addr × CodeRange)} (he : es.Pairwise (·.1 < ·.1))
    (hd : ds.Pairwise (·.1 < ·.1)) (h : ∀ k, es.find? (·.1 == k) = ds.find? (·.1 == k)) : es = ds := by
  induction es generalizing ds with
  | nil =>
    cases ds with
    | nil => rfl
    | cons d ds => simpa using h d.1
  | cons e es ih =>
    cases ds with
    | nil => simpa using h e.1
    | cons d ds =>
      have he' := List.pairwise_cons.1 he
      have hd' := List.pairwise_cons.1 hd
      have hk : e.1 = d.1 := UInt64.le_antisymm
        (UInt64.not_lt.1 (not_lt_of_find?_eq he'.1 (h d.1).symm))
        (UInt64.not_lt.1 (not_lt_of_find?_eq hd'.1 (h e.1)))
      have hed : e = d := by simpa [hk] using h e.1
      refine List.cons_eq_cons.2 ⟨hed, ih he'.2 hd'.2 fun k => ?_⟩
      by_cases hek : e.1 = k
      · rw [find?_eq_none_of_forall_lt (hek ▸ he'.1), find?_eq_none_of_forall_lt (hek ▸ hk ▸ hd'.1)]
      · simpa [hek, ← hk] using h k

structure FrameCache where
  entries : List (Addr × CodeRange)
  ascending : entries.Pairwise (·.1 < ·.1)

namespace FrameCache

@[ext] theorem ext {c d : FrameCache} (h : c.entries = d.entries) : c = d := by
  cases c; cases d; simp_all

def empty : FrameCache := ⟨[], .nil⟩

instance : Inhabited FrameCache := ⟨empty⟩

def lookup (c : FrameCache) (key : Addr) : Option CodeRange :=
  (c.entries.find? (·.1 == key)).map (·.2)

def insert (c : FrameCache) (key : Addr) (range : CodeRange) : FrameCache :=
  ⟨bindAscending key range c.entries, pairwise_bindAscending key range c.ascending⟩

/-- Binds the key and logs the range that gives way, if it is a different one. -/
def remember (c : FrameCache) (key : Addr) (range : CodeRange) : Traced FrameCache := do
  match c.lookup key with
  | some old => if old ≠ range then log (.rangeReplaced key old range)
  | none => pure ()
  return c.insert key range

def size (c : FrameCache) : Nat := c.entries.length

def isEmpty (c : FrameCache) : Bool := c.entries.isEmpty

/-- Keys stand in decimal and ascend. -/
def text (c : FrameCache) : String :=
  "RangeCache \x7b ranges: \x7b" ++
    ", ".intercalate (c.entries.map fun e => toString e.1.toNat ++ ": " ++ e.2.fieldText) ++ "\x7d \x7d"

@[simp] theorem lookup_empty (key : Addr) : empty.lookup key = none := rfl

@[simp] theorem size_empty : empty.size = 0 := rfl

@[simp] theorem value_remember (c : FrameCache) (key : Addr) (range : CodeRange) :
    (c.remember key range).value = c.insert key range := by
  simp only [remember]
  split
  · split <;> rfl
  · rfl

theorem find?_bindAscending (key k : Addr) (range : CodeRange) (es : List (Addr × CodeRange)) :
    (bindAscending key range es).find? (·.1 == k) =
      if key = k then some (key, range) else es.find? (·.1 == k) := by
  induction es with
  | nil => by_cases h : key = k <;> simp [bindAscending, h]
  | cons e es ih => by_cases h : key = k <;> grind [bindAscending]

theorem lookup_insert (c : FrameCache) (key k : Addr) (range : CodeRange) :
    (c.insert key range).lookup k = if key = k then some range else c.lookup k := by
  simp only [lookup, insert, find?_bindAscending]
  split <;> rfl

@[simp] theorem lookup_insert_self (c : FrameCache) (key : Addr) (range : CodeRange) :
    (c.insert key range).lookup key = some range := by simp [lookup_insert]

theorem find?_entries (c : FrameCache) (key : Addr) :
    c.entries.find? (·.1 == key) = (c.lookup key).map fun range => (key, range) := by
  rw [lookup, Option.map_map]
  cases h : c.entries.find? (·.1 == key) with
  | none => rfl
  | some e =>
    have hk : e.1 = key := by simpa using List.find?_some h
    simp [← hk]

theorem ext_lookup {c d : FrameCache} (h : ∀ key, c.lookup key = d.lookup key) : c = d :=
  ext (eq_of_find?_eq c.ascending d.ascending fun key => by rw [find?_entries, find?_entries, h])

def keys (c : FrameCache) : List Addr := c.entries.map (·.1)

theorem nodup_keys (c : FrameCache) : c.keys.Nodup :=
  List.pairwise_map.2 (c.ascending.imp fun h => UInt64.ne_of_lt h)

theorem mem_keys_iff {c : FrameCache} {key : Addr} : key ∈ c.keys ↔ c.lookup key ≠ none := by
  rw [lookup, ne_eq, Option.map_eq_none_iff, List.find?_eq_none]
  simp [keys]

theorem length_keys (c : FrameCache) : c.keys.length = c.size := List.length_map _

theorem isEmpty_iff {c : FrameCache} : c.isEmpty = true ↔ c.size = 0 := by
  simp [isEmpty, size]

theorem isEmpty_iff_lookup {c : FrameCache} : c.isEmpty = true ↔ ∀ key, c.lookup key = none := by
  have hkeys : c.isEmpty = true ↔ c.keys = [] := by simp [isEmpty, keys]
  rw [hkeys, List.eq_nil_iff_forall_not_mem]
  simp only [mem_keys_iff, ne_eq, Decidable.not_not]

end FrameCache
end JitFrames
