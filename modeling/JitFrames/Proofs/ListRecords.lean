import Mathlib.Data.List.Induction

/-! Lists read as records: the last element of a kind, by what may stand behind it, and the one entry that a key
has. -/
namespace JitFrames

section LastBut

variable {α : Type*} {q : α → Prop} {a b : α} {l : List α}

/-- It is in the list, and everything behind it satisfies `q`. -/
def LastBut (q : α → Prop) (l : List α) (a : α) : Prop :=
  ∃ before after, l = before ++ a :: after ∧ ∀ b ∈ after, q b

theorem not_lastBut_nil : ¬ LastBut q [] a := by
  rintro ⟨before, after, h, -⟩
  simp at h

theorem lastBut_cons_iff : LastBut q (b :: l) a ↔ LastBut q l a ∨ b = a ∧ ∀ c ∈ l, q c := by
  constructor
  · rintro ⟨before, after, h, hafter⟩
    cases before with
    | nil =>
      obtain ⟨rfl, rfl⟩ := List.cons.inj h
      exact .inr ⟨rfl, hafter⟩
    | cons c before =>
      obtain ⟨rfl, rfl⟩ := List.cons.inj h
      exact .inl ⟨before, after, rfl, hafter⟩
  · rintro (⟨before, after, rfl, hafter⟩ | ⟨rfl, hl⟩)
    · exact ⟨b :: before, after, rfl, hafter⟩
    · exact ⟨[], l, rfl, hl⟩

theorem exists_lastBut_cons_iff {p : α → Prop} : (∃ a, p a ∧ LastBut q (b :: l) a) ↔
    (∃ a, p a ∧ LastBut q l a) ∨ p b ∧ ∀ c ∈ l, q c := by
  simp only [lastBut_cons_iff, and_or_left, exists_or]
  refine or_congr_right ⟨?_, ?_⟩
  · rintro ⟨a, ha, rfl, hl⟩
    exact ⟨ha, hl⟩
  · rintro ⟨hb, hl⟩
    exact ⟨b, hb, rfl, hl⟩

theorem lastBut_concat_iff : LastBut q (l ++ [b]) a ↔ b = a ∨ q b ∧ LastBut q l a := by
  induction l with
  | nil => simp [lastBut_cons_iff, not_lastBut_nil]
  | cons c l ih =>
    have hall : (∀ d ∈ l ++ [b], q d) ↔ (∀ d ∈ l, q d) ∧ q b := by
      rw [List.forall_mem_append, List.forall_mem_singleton]
    rw [List.cons_append, lastBut_cons_iff, ih, lastBut_cons_iff, hall]
    tauto

theorem LastBut.mem (h : LastBut q l a) : a ∈ l := by
  obtain ⟨before, after, rfl, -⟩ := h
  simp

theorem exists_lastBut (h : ∃ a ∈ l, ¬ q a) : ∃ a, LastBut q l a ∧ ¬ q a := by
  induction l with
  | nil => simp at h
  | cons b l ih =>
    by_cases hrest : ∃ a ∈ l, ¬ q a
    · obtain ⟨a, ha, hqa⟩ := ih hrest
      exact ⟨a, lastBut_cons_iff.2 (.inl ha), hqa⟩
    · have hl : ∀ a ∈ l, q a := by simpa using hrest
      obtain ⟨a, ha, hqa⟩ := h
      rcases List.mem_cons.1 ha with rfl | ha
      · exact ⟨a, lastBut_cons_iff.2 (.inr ⟨rfl, hl⟩), hqa⟩
      · exact absurd (hl a ha) hqa

/-- Elements that may stand behind it can be left out. -/
theorem lastBut_filter_iff {p : α → Bool} (ha : p a = true) (hq : ∀ b, p b = false → q b) :
    LastBut q (l.filter p) a ↔ LastBut q l a := by
  induction l with
  | nil => rfl
  | cons b l ih =>
    have hall : (∀ c ∈ l.filter p, q c) ↔ ∀ c ∈ l, q c := by
      refine ⟨fun h c hc => ?_, fun h c hc => h c (List.mem_filter.1 hc).1⟩
      cases hp : p c with
      | false => exact hq c hp
      | true => exact h c (List.mem_filter.2 ⟨hc, hp⟩)
    cases hb : p b with
    | false =>
      have hne : b ≠ a := fun h => by simp [h, ha] at hb
      rw [List.filter_cons_of_neg (by simp [hb]), ih, lastBut_cons_iff, or_iff_left fun h => hne h.1]
    | true => rw [List.filter_cons_of_pos hb, lastBut_cons_iff, ih, lastBut_cons_iff, hall]

theorem LastBut.findRev?_eq {p : α → Bool} (h : LastBut q l a) (ha : p a = true)
    (hq : ∀ b, q b → p b = false) : l.findRev? p = some a := by
  obtain ⟨before, after, rfl, hafter⟩ := h
  have hnone : after.reverse.find? p = none := by
    rw [List.find?_eq_none]
    intro b hb
    simp [hq b (hafter b (List.mem_reverse.1 hb))]
  simp [List.find?_append, hnone, ha]

end LastBut

section Key

variable {α κ : Type*} [BEq κ] [LawfulBEq κ]

theorem find?_key_eq_some_iff {key : α → κ} {l : List α} (h : (l.map key).Nodup) {k : κ} {a : α} :
    l.find? (key · == k) = some a ↔ a ∈ l ∧ key a = k := by
  induction l with
  | nil => simp
  | cons b l ih =>
    obtain ⟨hb, hl⟩ := List.nodup_cons.1 h
    by_cases hk : key b = k
    · have hother : ∀ c ∈ l, key c ≠ k := fun c hc hck => hb (List.mem_map.2 ⟨c, hc, hck.trans hk.symm⟩)
      rw [List.find?_cons_of_pos (by simpa using hk), List.mem_cons]
      constructor
      · intro he
        obtain rfl := Option.some.inj he
        exact ⟨.inl rfl, hk⟩
      · rintro ⟨rfl | ha, hak⟩
        · rfl
        · exact absurd hak (hother a ha)
    · have hne : key a = k → b ≠ a := fun hak hba => hk (hba ▸ hak)
      rw [List.find?_cons_of_neg (by simpa using hk), ih hl, List.mem_cons]
      exact and_congr_left fun hak => (or_iff_right (hne hak).symm).symm

theorem value_find?_key_eq_some_iff {β : Type*} {l : List (κ × β)} (h : (l.map (·.1)).Nodup) {k : κ} {b : β} :
    (l.find? (·.1 == k)).map (·.2) = some b ↔ (k, b) ∈ l := by
  simp only [Option.map_eq_some_iff, find?_key_eq_some_iff h]
  constructor
  · rintro ⟨e, ⟨he, rfl⟩, rfl⟩
    exact he
  · intro hkb
    exact ⟨(k, b), ⟨hkb, rfl⟩, rfl⟩

end Key

end JitFrames
