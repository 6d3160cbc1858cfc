import JitFrames.ExtensionTable
import JitFrames.Proofs.ListRecords

/-! The order of a table, read off its history. A name stands for its latest registration, as long as it has not
been taken out since; the table is the stable descending sort by priority of the registrations that stand. -/
namespace JitFrames

variable {α : Type}

/-- What can be done to a table under a name. -/
inductive TableChange (α : Type)
  | register (name : String) (priority : Int) (value : α)
  | unregister (name : String)
  | write (name : String) (f : α → α)

namespace TableChange

/-- Whether the name is in the table is decided by the change, and by nothing before it. -/
def settles (name : String) : TableChange α → Bool
  | .register n _ _ | .unregister n => n == name
  | .write _ _ => false

/-- What a value under the name becomes by a change that does not settle the name. -/
def rewrite (name : String) (value : α) : TableChange α → α
  | .write n f => if n = name then f value else value
  | .register .. | .unregister _ => value

/-- The registrations that stand after the changes, in the order in which they were made. -/
def standing : List (TableChange α) → List (Extension α)
  | [] => []
  | .register name priority value :: later =>
    if later.any (settles name) then standing later
    else ⟨name, priority, later.foldl (rewrite name) value⟩ :: standing later
  | .unregister _ :: later | .write _ _ :: later => standing later

/-- At this place the name of the extension is registered for the last time, and nothing takes it out
afterwards. Its value is the registered one with the later writes. -/
def LatestAt (changes : List (TableChange α)) (place : Nat) (e : Extension α) : Prop :=
  ∃ value, changes[place]? = some (.register e.name e.priority value) ∧
    (∀ c ∈ changes.drop (place + 1), c.settles e.name = false) ∧
    e.value = (changes.drop (place + 1)).foldl (rewrite e.name) value

def RegisteredBefore (changes : List (TableChange α)) (a b : Extension α) : Prop :=
  ∃ m n, LatestAt changes m a ∧ LatestAt changes n b ∧ m < n

/-- What a change makes of the registrations that stand. -/
def amend : TableChange α → List (Extension α) → List (Extension α)
  | .register name priority value, es => es.filter (·.name != name) ++ [⟨name, priority, value⟩]
  | .unregister name, es => es.filter (·.name != name)
  | .write name f, es => es.map fun e => if e.name = name then { e with value := f e.value } else e

variable {c : TableChange α} {changes : List (TableChange α)} {e : Extension α}

theorem amend_nil (c : TableChange α) : c.amend [] = standing [c] := by cases c <;> rfl

theorem amend_cons_of_settles (h : c.settles e.name = true) (es : List (Extension α)) :
    c.amend (e :: es) = c.amend es := by
  cases c with
  | register n p v =>
    have hn : n = e.name := by simpa [settles] using h
    simp [amend, hn]
  | unregister n =>
    have hn : n = e.name := by simpa [settles] using h
    simp [amend, hn]
  | write n f => cases h

theorem amend_cons_of_not_settles (h : c.settles e.name = false) (es : List (Extension α)) :
    c.amend (e :: es) = { e with value := c.rewrite e.name e.value } :: c.amend es := by
  cases c with
  | register n p v =>
    have hn : n ≠ e.name := by simpa [settles] using h
    simp [amend, hn.symm, rewrite]
  | unregister n =>
    have hn : n ≠ e.name := by simpa [settles] using h
    simp [amend, hn.symm, rewrite]
  | write n f =>
    by_cases hn : n = e.name
    · simp [amend, hn, rewrite]
    · simp [amend, hn, Ne.symm hn, rewrite]

theorem standing_concat (changes : List (TableChange α)) (c : TableChange α) :
    standing (changes ++ [c]) = c.amend (standing changes) := by
  induction changes with
  | nil => exact (amend_nil c).symm
  | cons d ds ih =>
    cases d with
    | register n p v =>
      simp only [List.cons_append, standing, List.any_append, List.any_cons, List.any_nil, Bool.or_false]
      by_cases hlater : ds.any (settles n) = true
      · simp [hlater, ih]
      · by_cases hc : c.settles n = true
        · simp [hlater, hc, ih, amend_cons_of_settles]
        · have hc' : c.settles n = false := by simpa using hc
          simp [hlater, hc', ih, amend_cons_of_not_settles]
    | unregister n => exact ih
    | write n f => exact ih

theorem latestAt_zero_iff : LatestAt (c :: changes) 0 e ↔ ∃ value, c = .register e.name e.priority value ∧
    (∀ d ∈ changes, d.settles e.name = false) ∧ e.value = changes.foldl (rewrite e.name) value := by
  simp [LatestAt]

theorem mem_standing_cons_iff :
    e ∈ standing (c :: changes) ↔ LatestAt (c :: changes) 0 e ∨ e ∈ standing changes := by
  rw [latestAt_zero_iff]
  cases c with
  | register n p v =>
    simp only [standing]
    by_cases hlater : changes.any (settles n) = true
    · rw [if_pos hlater]
      refine ⟨Or.inr, ?_⟩
      rintro (⟨value, hc, hkept, -⟩ | h)
      · obtain ⟨rfl, -, -⟩ := TableChange.register.inj hc
        obtain ⟨d, hd, hs⟩ := List.any_eq_true.1 hlater
        simp [hkept d hd] at hs
      · exact h
    · rw [if_neg hlater, List.mem_cons]
      refine or_congr_left ⟨?_, ?_⟩
      · rintro rfl
        exact ⟨v, rfl, by simpa using hlater, rfl⟩
      · rintro ⟨value, hc, -, hv⟩
        obtain ⟨rfl, rfl, rfl⟩ := TableChange.register.inj hc
        exact congrArg (Extension.mk e.name e.priority) hv
  | unregister n => simp [standing]
  | write n f => simp [standing]

theorem mem_standing_iff : e ∈ standing changes ↔ ∃ place, LatestAt changes place e := by
  induction changes with
  | nil => simp [standing, LatestAt]
  | cons c changes ih =>
    rw [mem_standing_cons_iff, ih]
    exact Nat.or_exists_add_one (p := fun place => LatestAt (c :: changes) place e)

theorem RegisteredBefore.cons {a b : Extension α} (h : RegisteredBefore changes a b)
    (c : TableChange α) : RegisteredBefore (c :: changes) a b := by
  obtain ⟨m, n, ha, hb, hmn⟩ := h
  exact ⟨m + 1, n + 1, ha, hb, Nat.succ_lt_succ hmn⟩

theorem pairwise_standing (changes : List (TableChange α)) :
    (standing changes).Pairwise (RegisteredBefore changes) := by
  induction changes with
  | nil => exact .nil
  | cons c changes ih =>
    have htail : (standing changes).Pairwise (RegisteredBefore (c :: changes)) := ih.imp fun h => h.cons c
    cases c with
    | register n p v =>
      simp only [standing]
      by_cases hlater : changes.any (settles n) = true
      · rw [if_pos hlater]
        exact htail
      · rw [if_neg hlater]
        refine List.pairwise_cons.2 ⟨fun b hb => ?_, htail⟩
        obtain ⟨place, hplace⟩ := mem_standing_iff.1 hb
        have hfirst : LatestAt (.register n p v :: changes) 0 ⟨n, p, changes.foldl (rewrite n) v⟩ :=
          latestAt_zero_iff.2 ⟨v, rfl, by simpa using hlater, rfl⟩
        exact ⟨0, place + 1, hfirst, hplace, Nat.succ_pos place⟩
    | unregister n => exact htail
    | write n f => exact htail

end TableChange

/-- A list is the stable sort of another by priority, highest first: the extensions of each priority are the
same and stand in the same order. -/
structure IsStableSort (es l : List (Extension α)) : Prop where
  descending : es.Pairwise (·.priority ≥ ·.priority)
  equals : ∀ p, es.filter (·.priority == p) = l.filter (·.priority == p)

namespace IsStableSort

variable {es ds l : List (Extension α)}

theorem filter (h : IsStableSort es l) (q : Extension α → Bool) :
    IsStableSort (es.filter q) (l.filter q) where
  descending := h.descending.filter q
  equals p := by
    have hp := congrArg (List.filter q) (h.equals p)
    simpa only [List.filter_filter, Bool.and_comm] using hp

theorem map (h : IsStableSort es l) {f : Extension α → Extension α} (hf : ∀ e, (f e).priority = e.priority) :
    IsStableSort (es.map f) (l.map f) where
  descending := by
    refine List.pairwise_map.2 (h.descending.imp fun hab => ?_)
    rwa [hf, hf]
  equals p := by
    have hp := congrArg (List.map f) (h.equals p)
    simpa only [List.filter_map, Function.comp_def, hf] using hp

theorem priority_le_head {d e : Extension α} (h : (d :: ds).Pairwise (·.priority ≥ ·.priority))
    (he : e ∈ d :: ds) : e.priority ≤ d.priority := by
  rcases List.mem_cons.1 he with rfl | he
  · exact Int.le_refl _
  · exact (List.pairwise_cons.1 h).1 e he

theorem filter_insertByPriority {e : Extension α} (h : es.Pairwise (·.priority ≥ ·.priority)) :
    (insertByPriority e es).filter (·.priority == e.priority) =
      es.filter (·.priority == e.priority) ++ [e] := by
  induction es with
  | nil => simp [insertByPriority]
  | cons d ds ih =>
    simp only [insertByPriority]
    by_cases hlt : d.priority < e.priority
    · have hnone : (d :: ds).filter (·.priority == e.priority) = [] := by
        rw [List.filter_eq_nil_iff]
        intro c hc
        have hce : c.priority < e.priority := Int.lt_of_le_of_lt (priority_le_head h hc) hlt
        simpa using Int.ne_of_lt hce
      rw [if_pos hlt, List.filter_cons_of_pos (by simp), hnone]
      rfl
    · rw [if_neg hlt]
      simp only [List.filter_cons, ih (List.pairwise_cons.1 h).2]
      split <;> rfl

theorem insert (h : IsStableSort es l) (e : Extension α) :
    IsStableSort (insertByPriority e es) (l ++ [e]) where
  descending := pairwise_insertByPriority e h.descending
  equals p := by
    rw [List.filter_append, ← h.equals p]
    by_cases hp : e.priority = p
    · subst hp
      simpa using filter_insertByPriority h.descending
    · have hneg : (e.priority == p) = false := by simpa using hp
      rw [filter_insertByPriority_of_neg (·.priority == p) hneg, List.filter_cons_of_neg (by simp [hneg])]
      simp

theorem mem_iff (h : IsStableSort es l) {e : Extension α} : e ∈ es ↔ e ∈ l := by
  have hp : e ∈ es.filter (·.priority == e.priority) ↔ e ∈ l.filter (·.priority == e.priority) := by
    rw [h.equals]
  simpa using hp

theorem pairwise {R : Extension α → Extension α → Prop} (h : IsStableSort es l) (hl : l.Pairwise R) :
    es.Pairwise fun a b => b.priority < a.priority ∨ a.priority = b.priority ∧ R a b := by
  rw [List.pairwise_iff_forall_sublist]
  intro a b hab
  have hle : b.priority ≤ a.priority := List.pairwise_iff_forall_sublist.1 h.descending hab
  by_cases heq : a.priority = b.priority
  · have hequals : (es.filter (·.priority == b.priority)).Pairwise R := by
      rw [h.equals]
      exact hl.filter _
    have hsub : [a, b].Sublist (es.filter (·.priority == b.priority)) := by
      have hf := hab.filter (·.priority == b.priority)
      simpa [heq] using hf
    exact .inr ⟨heq, List.pairwise_iff_forall_sublist.1 hequals hsub⟩
  · exact .inl (by omega)

theorem eq_of_descending (h : IsStableSort es ds) (hds : ds.Pairwise (·.priority ≥ ·.priority)) :
    es = ds := by
  induction es generalizing ds with
  | nil =>
    have hnone : ∀ e, e ∉ ds := fun e he => by simpa using h.mem_iff.2 he
    exact (List.eq_nil_iff_forall_not_mem.2 hnone).symm
  | cons e es ih =>
    cases ds with
    | nil => simpa using h.mem_iff.1 List.mem_cons_self
    | cons d ds =>
      have hed : e.priority ≤ d.priority := priority_le_head hds (h.mem_iff.1 List.mem_cons_self)
      have hde : d.priority ≤ e.priority := priority_le_head h.descending (h.mem_iff.2 List.mem_cons_self)
      have hp : e.priority = d.priority := Int.le_antisymm hed hde
      -- The two lists have the same equals of the first priority, and begin with the first of them.
      obtain rfl : e = d := by
        have hequals := h.equals d.priority
        rw [List.filter_cons_of_pos (by simpa using hp), List.filter_cons_of_pos (by simp)] at hequals
        exact (List.cons.inj hequals).1
      have htail : IsStableSort es ds := {
        descending := (List.pairwise_cons.1 h.descending).2
        equals := fun p => by
          have hequals := h.equals p
          simp only [List.filter_cons] at hequals
          split at hequals
          · exact (List.cons.inj hequals).2
          · exact hequals }
      rw [ih htail (List.pairwise_cons.1 hds).2]

theorem unique (h : IsStableSort es l) (h' : IsStableSort ds l) : es = ds :=
  eq_of_descending ⟨h.descending, fun p => (h.equals p).trans (h'.equals p).symm⟩ h'.descending

theorem mergeSort (l : List (Extension α)) :
    IsStableSort (l.mergeSort fun a b => decide (b.priority ≤ a.priority)) l := by
  let le : Extension α → Extension α → Bool := fun a b => decide (b.priority ≤ a.priority)
  have htrans : ∀ a b c, le a b = true → le b c = true → le a c = true := by
    intro a b c hab hbc
    simp only [le, decide_eq_true_eq] at hab hbc ⊢
    exact Int.le_trans hbc hab
  have htotal : ∀ a b, (le a b || le b a) = true := by
    intro a b
    simpa [le] using Int.le_total b.priority a.priority
  constructor
  · exact (List.pairwise_mergeSort htrans htotal l).imp fun hab => by simpa [le] using hab
  · intro p
    have hequal : (l.filter (·.priority == p)).Pairwise fun a b => le a b = true := by
      refine List.pairwise_of_forall_mem_list fun a ha b hb => ?_
      have hap : a.priority = p := by simpa using (List.mem_filter.1 ha).2
      have hbp : b.priority = p := by simpa using (List.mem_filter.1 hb).2
      simp [le, hap, hbp]
    have hsub : (l.filter (·.priority == p)).Sublist (l.mergeSort le) :=
      List.sublist_mergeSort htrans htotal hequal List.filter_sublist
    have hsub' : (l.filter (·.priority == p)).Sublist ((l.mergeSort le).filter (·.priority == p)) := by
      simpa using hsub.filter (·.priority == p)
    have hlength := ((List.mergeSort_perm l le).filter (·.priority == p)).length_eq
    exact (hsub'.eq_of_length hlength.symm).symm

end IsStableSort

namespace ExtensionTable

open TableChange

/-- Performs a change. It gives the extension that the name has stood for. -/
def change (t : ExtensionTable α) : TableChange α → Option α × ExtensionTable α
  | .register name priority value => (t.register name priority value).value
  | .unregister name => t.unregister name
  | .write name f => (t.find? name, t.modify name f)

def after (changes : List (TableChange α)) : ExtensionTable α :=
  changes.foldl (fun t c => (t.change c).2) .empty

theorem after_concat (changes : List (TableChange α)) (c : TableChange α) :
    after (changes ++ [c]) = ((after changes).change c).2 := by
  simp [after]

theorem isStableSort_change {t : ExtensionTable α} {l : List (Extension α)} (h : IsStableSort t.entries l)
    (c : TableChange α) : IsStableSort (t.change c).2.entries (c.amend l) := by
  cases c with
  | register name priority value =>
    simp only [change, value_register, ExtensionTable.insert, entries_erase]
    exact (h.filter (·.name != name)).insert ⟨name, priority, value⟩
  | unregister name =>
    simp only [change, unregister, entries_erase]
    exact h.filter (·.name != name)
  | write name f =>
    refine h.map fun e => ?_
    split <;> rfl

theorem isStableSort_after (changes : List (TableChange α)) :
    IsStableSort (after changes).entries (standing changes) := by
  -- The last change comes last on both sides, so the induction is from the end.
  induction changes using List.reverseRecOn with
  | nil => exact ⟨.nil, fun p => rfl⟩
  | append_singleton changes c ih =>
    rw [after_concat, standing_concat]
    exact isStableSort_change ih c

variable {t : ExtensionTable α} {name : String}

theorem find?_eq_some_iff {value : α} :
    t.find? name = some value ↔ ∃ e ∈ t.entries, e.name = name ∧ e.value = value := by
  simp only [find?, Option.map_eq_some_iff, find?_key_eq_some_iff t.distinct, and_assoc]

theorem find?_eq_none_iff : t.find? name = none ↔ name ∉ t.toList.map (·.1) := by
  simp [find?, map_fst_toList]

theorem erase_of_absent (h : t.find? name = none) : t.erase name = t := by
  apply ext
  rw [find?, Option.map_eq_none_iff, List.find?_eq_none] at h
  exact List.eraseP_of_forall_not h

theorem modify_of_absent (h : t.find? name = none) (f : α → α) : t.modify name f = t := by
  apply ext
  rw [find?, Option.map_eq_none_iff, List.find?_eq_none] at h
  refine (List.map_congr_left fun e he => ?_).trans (List.map_id _)
  rw [if_neg (by simpa using h e he)]
  rfl

/-- After any changes a table is the stable descending sort by priority of the registrations that stand. Its
names are distinct, and each stands for its latest registration with the later writes. -/
theorem registrations_in_order (changes : List (TableChange α)) :
    let t := after changes
    (t.toList.map (·.1)).Nodup ∧
    (∀ name, name ∈ t.toList.map (·.1) ↔ ∃ place e, LatestAt changes place e ∧ e.name = name) ∧
    (∀ e, e ∈ t.entries ↔ ∃ place, LatestAt changes place e) ∧
    t.entries.Pairwise (fun a b => b.priority < a.priority ∨
      a.priority = b.priority ∧ RegisteredBefore changes a b) ∧
    (∀ name value, t.find? name = some value ↔
      ∃ place e, LatestAt changes place e ∧ e.name = name ∧ e.value = value) ∧
    (∀ name, t.find? name = none ↔ name ∉ t.toList.map (·.1)) ∧
    (∀ name priority value, (t.register name priority value).value.1 = t.find? name) ∧
    (∀ name, (t.unregister name).1 = t.find? name) ∧
    t.size = t.toList.length ∧ (t.isEmpty = true ↔ t.toList = []) ∧
    (∀ name, (t.unregister name).2.toList = t.toList.filter (·.1 != name)) ∧
    (∀ name f, (t.modify name f).toList = t.toList.map fun e => if e.1 = name then (e.1, f e.2) else e) ∧
    (∀ name, t.find? name = none → (t.unregister name).2 = t ∧ ∀ f, t.modify name f = t) ∧
    t.toList = ((standing changes).mergeSort fun a b => decide (b.priority ≤ a.priority)).map
      fun e => (e.name, e.value) := by
  intro t
  have hsort : IsStableSort t.entries (standing changes) := isStableSort_after changes
  have hmem : ∀ e, e ∈ t.entries ↔ ∃ place, LatestAt changes place e :=
    fun e => hsort.mem_iff.trans mem_standing_iff
  have hname : ∀ name, name ∈ t.toList.map (·.1) ↔ ∃ place e, LatestAt changes place e ∧ e.name = name := by
    intro name
    simp only [map_fst_toList, List.mem_map, hmem, ← exists_and_right]
    exact exists_comm
  have hvalue : ∀ name value, t.find? name = some value ↔
      ∃ place e, LatestAt changes place e ∧ e.name = name ∧ e.value = value := by
    intro name value
    simp only [find?_eq_some_iff, hmem, ← exists_and_right]
    exact exists_comm
  have hdistinct : (t.toList.map (·.1)).Nodup := by
    rw [map_fst_toList]
    exact t.distinct
  have horder : t.entries.Pairwise fun a b => b.priority < a.priority ∨
      a.priority = b.priority ∧ RegisteredBefore changes a b := hsort.pairwise (pairwise_standing changes)
  refine ⟨hdistinct, hname, hmem, horder, hvalue, fun name => find?_eq_none_iff,
    fun name priority value => congrArg Prod.fst (t.value_register name priority value), fun name => rfl,
    t.length_toList.symm, ?_, fun name => ?_, fun name f => ?_,
    fun name h => ⟨erase_of_absent h, modify_of_absent h⟩, ?_⟩
  · simp [isEmpty, toList]
  · simp only [unregister, entries_erase, toList, List.filter_map]
    rfl
  · simp only [modify, toList, List.map_map]
    refine List.map_congr_left fun e he => ?_
    simp only [Function.comp]
    split <;> rfl
  · rw [← hsort.unique (.mergeSort _)]
    rfl

example : (after [.register "a" 1 10, .register "b" 1 20, .register "a" 1 30, .write "b" (· + 1)]).toList =
    [("b", 21), ("a", 30)] := by decide

end ExtensionTable
end JitFrames
