import JitFrames.Installation
import JitFrames.Proofs.FrameLabels

/-! Installed unwinders and filters as pairs. The place of an extension depends on the names and the priorities
of its table alone, so two tables that are changed alike keep one order, and each unwinder has its filter at the
same place. -/
namespace JitFrames

variable {α : Type}

/-- The place that an extension takes up, without the extension. -/
def Extension.slot (e : Extension α) : Extension Unit := ⟨e.name, e.priority, ()⟩

theorem map_slot_insertByPriority (e : Extension α) (es : List (Extension α)) :
    (insertByPriority e es).map (·.slot) = insertByPriority e.slot (es.map (·.slot)) := by
  induction es with
  | nil => rfl
  | cons d ds ih =>
    by_cases hlt : d.priority < e.priority
    · simp [insertByPriority, hlt, Extension.slot]
    · simp only [insertByPriority, hlt, if_false, List.map_cons, ih]
      rw [if_neg (by exact hlt)]

namespace ExtensionTable

def slots (t : ExtensionTable α) : List (Extension Unit) := t.entries.map (·.slot)

theorem slots_erase (t : ExtensionTable α) (name : String) :
    (t.erase name).slots = t.slots.filter (·.name != name) := by
  simp only [slots, entries_erase, List.filter_map]
  rfl

theorem slots_insert (t : ExtensionTable α) (name : String) (priority : Int) (value : α) :
    (t.insert name priority value).slots =
      insertByPriority ⟨name, priority, ()⟩ (t.slots.filter (·.name != name)) := by
  rw [← slots_erase]
  exact map_slot_insertByPriority ⟨name, priority, value⟩ (t.erase name).entries

theorem slots_modify (t : ExtensionTable α) (name : String) (f : α → α) :
    (t.modify name f).slots = t.slots := by
  simp only [slots, modify, List.map_map]
  refine List.map_congr_left fun e _ => ?_
  simp only [Function.comp]
  split <;> rfl

theorem map_fst_toList_eq_slots (t : ExtensionTable α) : t.toList.map (·.1) = t.slots.map (·.name) := by
  rw [map_fst_toList, slots, List.map_map]
  rfl

theorem erase_insert (t : ExtensionTable α) (name : String) (priority : Int) (value : α) :
    (t.insert name priority value).erase name = t.erase name := by
  apply ext
  have hgone := filter_insertByPriority_of_neg (·.name != name) (e := ⟨name, priority, value⟩) (by simp)
    (t.erase name).entries
  rw [entries_erase]
  refine hgone.trans ?_
  simp only [entries_erase, List.filter_filter, Bool.and_self]

theorem insert_insert (t : ExtensionTable α) (name : String) (p q : Int) (v w : α) :
    (t.insert name p v).insert name q w = t.insert name q w := by
  apply ext
  exact congrArg (fun u => insertByPriority ⟨name, q, w⟩ u.entries) (t.erase_insert name p v)

end ExtensionTable

namespace Installation

/-- What can be done to an installation: the two tables are changed together, but for the switches. -/
inductive Action
  | install (c : Config)
  | uninstall (name : String)
  | switchUnwinder (name : String) (enabled : Bool)
  | switchFilter (name : String) (enabled : Bool)

namespace Action

/-- Which configuration the name stands for is decided by the action, and by nothing before it. -/
def settles (name : String) : Action → Bool
  | .install c => c.name == name
  | .uninstall n => n == name
  | .switchUnwinder .. | .switchFilter .. => false

def config? : Action → Option Config
  | .install c => some c
  | .uninstall _ | .switchUnwinder .. | .switchFilter .. => none

theorem config?_eq_some_iff {a : Action} {name : String} {c : Config} (h : a.settles name = true) :
    a.config? = some c ↔ a = .install c ∧ c.name = name := by
  cases a with
  | install d =>
    have hn : d.name = name := by simpa [settles] using h
    simp only [config?, Option.some.injEq, install.injEq]
    exact ⟨fun hd => ⟨hd, hd ▸ hn⟩, And.left⟩
  | uninstall n => simp [config?]
  | switchUnwinder n enabled => cases h
  | switchFilter n enabled => cases h

end Action

/-- The configuration is the last one installed under the name, and has not been uninstalled since. -/
def LatestInstall (actions : List Action) (name : String) (c : Config) : Prop :=
  c.name = name ∧ LastBut (·.settles name = false) actions (.install c)

def perform (i : Installation) : Action → Installation
  | .install c => (i.install c).value
  | .uninstall name => ⟨(i.unwinders.unregister name).2, (i.filters.unregister name).2⟩
  | .switchUnwinder name enabled => { i with unwinders := i.unwinders.modify name ({ · with enabled }) }
  | .switchFilter name enabled => { i with filters := i.filters.modify name ({ · with enabled }) }

def after (actions : List Action) : Installation := actions.foldl perform {}

theorem after_concat (actions : List Action) (a : Action) :
    after (actions ++ [a]) = (after actions).perform a := by
  simp [after]

variable {i : Installation} {name : String} {c : Config}

theorem slots_perform (h : i.unwinders.slots = i.filters.slots) (a : Action) :
    (i.perform a).unwinders.slots = (i.perform a).filters.slots := by
  cases a with
  | install c =>
    simp only [perform, value_install, ExtensionTable.slots_insert, h]
  | uninstall name =>
    simp only [perform, ExtensionTable.unregister, ExtensionTable.slots_erase, h]
  | switchUnwinder name enabled =>
    simp only [perform, ExtensionTable.slots_modify, h]
  | switchFilter name enabled =>
    simp only [perform, ExtensionTable.slots_modify, h]

theorem slots_after (actions : List Action) :
    (after actions).unwinders.slots = (after actions).filters.slots := by
  induction actions using List.reverseRecOn with
  | nil => rfl
  | append_singleton actions a ih =>
    rw [after_concat]
    exact slots_perform ih a

/-- The configuration that the name stands for. -/
def config? (i : Installation) (name : String) : Option Config := (i.unwinders.find? name).map (·.config)

theorem config?_perform (i : Installation) (a : Action) (name : String) :
    (i.perform a).config? name = if a.settles name then a.config? else i.config? name := by
  cases a with
  | install c =>
    by_cases hn : c.name = name <;>
      simp [perform, config?, ExtensionTable.find?_insert, Action.settles, Action.config?, hn]
  | uninstall n =>
    by_cases hn : n = name <;>
      simp [perform, config?, ExtensionTable.unregister, ExtensionTable.find?_erase, Action.settles,
        Action.config?, hn]
  | switchUnwinder n enabled =>
    simp only [perform, config?, ExtensionTable.find?_modify, Action.settles]
    by_cases hn : n = name
    · simp [hn, Function.comp_def]
    · simp [hn]
  | switchFilter n enabled => rfl

theorem config?_after_iff {actions : List Action} :
    (after actions).config? name = some c ↔ LatestInstall actions name c := by
  induction actions using List.reverseRecOn with
  | nil =>
    have hnone : (after []).config? name = none := rfl
    simp [hnone, LatestInstall, not_lastBut_nil]
  | append_singleton actions a ih =>
    rw [after_concat, config?_perform, LatestInstall, lastBut_concat_iff]
    cases hs : a.settles name with
    | true =>
      rw [if_pos rfl, Action.config?_eq_some_iff hs]
      simp [and_comm]
    | false =>
      have hother : c.name = name → a ≠ .install c := by
        rintro hn rfl
        simp [Action.settles, hn] at hs
      rw [if_neg (by simp), ih, LatestInstall]
      exact and_congr_right fun hn => by simp [hother hn]

/-- The filter has the name, the priority and the convention of the unwinder's configuration. -/
structure FilterOf (u : Unwinder) (f : FrameFilter) : Prop where
  name : f.name = u.config.name
  priority : f.priority = u.config.priority
  convention : f.convention = u.config.convention

/-- The unwinder and the filter of a name belong together, if there are any. -/
def Paired (i : Installation) (name : String) : Prop :=
  Option.Rel FilterOf (i.unwinders.find? name) (i.filters.find? name)

theorem Paired.exists_filter (h : i.Paired name) {u : Unwinder} (hu : i.unwinders.find? name = some u) :
    ∃ f, i.filters.find? name = some f ∧ FilterOf u f := by
  unfold Paired at h
  rw [hu] at h
  generalize i.filters.find? name = f at h ⊢
  cases h with
  | some hf => exact ⟨_, rfl, hf⟩

theorem Paired.find?_eq_none_iff (h : i.Paired name) :
    i.filters.find? name = none ↔ i.unwinders.find? name = none := by
  unfold Paired at h
  generalize i.unwinders.find? name = u, i.filters.find? name = f at h ⊢
  cases h <;> simp

theorem rel_map {u? : Option Unwinder} {f? : Option FrameFilter} (h : Option.Rel FilterOf u? f?)
    {g : Unwinder → Unwinder} {k : FrameFilter → FrameFilter}
    (hgk : ∀ u f, FilterOf u f → FilterOf (g u) (k f)) : Option.Rel FilterOf (u?.map g) (f?.map k) := by
  cases h with
  | some hf => exact .some (hgk _ _ hf)
  | none => exact .none

theorem paired_perform (h : i.Paired name) (a : Action) : (i.perform a).Paired name := by
  unfold Paired at h ⊢
  cases a with
  | install c =>
    simp only [perform, value_install, ExtensionTable.find?_insert]
    by_cases hn : c.name = name
    · rw [if_pos hn, if_pos hn]
      exact .some ⟨rfl, rfl, rfl⟩
    · rw [if_neg hn, if_neg hn]
      exact h
  | uninstall n =>
    simp only [perform, ExtensionTable.unregister, ExtensionTable.find?_erase]
    by_cases hn : n = name
    · rw [if_pos hn, if_pos hn]
      exact .none
    · rw [if_neg hn, if_neg hn]
      exact h
  | switchUnwinder n enabled =>
    simp only [perform, ExtensionTable.find?_modify]
    by_cases hn : n = name
    · have hkept : (i.filters.find? name).map id = i.filters.find? name := Option.map_id_apply
      rw [if_pos hn, ← hkept]
      exact rel_map h fun u f hf => ⟨hf.name, hf.priority, hf.convention⟩
    · rw [if_neg hn]
      exact h
  | switchFilter n enabled =>
    simp only [perform, ExtensionTable.find?_modify]
    by_cases hn : n = name
    · have hkept : (i.unwinders.find? name).map id = i.unwinders.find? name := Option.map_id_apply
      rw [if_pos hn, ← hkept]
      exact rel_map h fun u f hf => ⟨hf.name, hf.priority, hf.convention⟩
    · rw [if_neg hn]
      exact h

theorem paired_after (actions : List Action) (name : String) : (after actions).Paired name := by
  induction actions using List.reverseRecOn with
  | nil => exact .none
  | append_singleton actions a ih =>
    rw [after_concat]
    exact paired_perform ih a

theorem FilterOf.shows_unwound {u : Unwinder} {f : FrameFilter} (h : FilterOf u f) (hf : f.enabled = true)
    {F : Type} [FrameView F] {frame : F} {chain : FunctionChain} {key : Addr} {range : CodeRange}
    (hc : u.Classifies chain (FrameView.registers frame) key range) (memory : Memory) (s : Session) :
    let left := ((u.unwindWith chain memory (FrameView.registers frame)).on s).value.2
    (f.decorate left.cache frame).run.value = .ok (.jit frame range) := by
  intro left
  have hleft : left = s.record (some (key, range)) := hc.snd_unwindWith memory s
  have hkey : FrameView.registers frame f.convention.fpRegister = .ok key := by
    obtain ⟨-, pc, hframe, -⟩ := hc
    rw [h.convention]
    exact (Unwinder.frameOf_eq_ok_iff.1 hframe).2
  have hlookup : left.cache.lookup key = some range := by
    rw [hleft, Session.lookup_record_some, if_pos rfl]
  rw [FrameFilter.value_decorate_of_enabled hf left.cache hkey, shownWith_eq_jit_iff.2 hlookup]

theorem install_install (i : Installation) (c : Config) :
    (i.install c).value.perform (.install c) = (i.install c).value := by
  simp only [perform, value_install, ExtensionTable.insert_insert]

/-- After any installing, uninstalling and switching both tables have the same names in the same order, and
under each name the unwinder and the filter of the configuration that was installed last. -/
theorem tables_in_step (actions : List Action) :
    let i := after actions
    i.unwinders.toList.map (·.1) = i.filters.toList.map (·.1) ∧
    (∀ name c, LatestInstall actions name c ↔ ∃ u, i.unwinders.find? name = some u ∧ u.config = c) ∧
    (∀ name c, LatestInstall actions name c → ∃ f, i.filters.find? name = some f ∧
      f.name = c.name ∧ f.priority = c.priority ∧ f.convention = c.convention) ∧
    (∀ name, (i.unwinders.find? name = none ↔ ∀ c, ¬ LatestInstall actions name c) ∧
      (i.filters.find? name = none ↔ ∀ c, ¬ LatestInstall actions name c)) ∧
    (∀ name u f, i.unwinders.find? name = some u → i.filters.find? name = some f →
      f.convention.fpRegister = u.convention.fpRegister ∧
      ∀ {F : Type} [FrameView F] (frame : F) target s key range, f.enabled = true →
        u.Classifies (u.registry target).chain (FrameView.registers frame) key range →
        (f.decorate ((u.unwind target (FrameView.registers frame)).on s).value.2.cache frame).run.value =
          .ok (.jit frame range)) ∧
    (∀ c, let installed := i.perform (.install c)
      installed.unwinders.find? c.name = some { config := c, enabled := true } ∧
      installed.filters.find? c.name = some { FrameFilter.ofConfig c with enabled := true }) ∧
    ∀ c, (i.perform (.install c)).perform (.install c) = i.perform (.install c) := by
  intro i
  have hnames : i.unwinders.toList.map (·.1) = i.filters.toList.map (·.1) := by
    rw [ExtensionTable.map_fst_toList_eq_slots, ExtensionTable.map_fst_toList_eq_slots, slots_after]
  have hpaired : ∀ name, i.Paired name := paired_after actions
  have hconfig : ∀ name c, LatestInstall actions name c ↔
      ∃ u, i.unwinders.find? name = some u ∧ u.config = c := by
    intro name c
    rw [← config?_after_iff]
    exact Option.map_eq_some_iff
  have hnone : ∀ name, i.unwinders.find? name = none ↔ ∀ c, ¬ LatestInstall actions name c := by
    intro name
    rw [Option.eq_none_iff_forall_ne_some]
    simp only [hconfig, not_exists, not_and]
    exact ⟨fun h c u hu _ => h u hu, fun h u hu => h u.config u hu rfl⟩
  refine ⟨hnames, hconfig, fun name c hlatest => ?_, fun name => ⟨hnone name, ?_⟩,
    fun name u f hu hf => ?_, fun c => ?_, fun c => i.install_install c⟩
  · obtain ⟨u, hu, rfl⟩ := (hconfig name c).1 hlatest
    obtain ⟨f, hf, hof⟩ := (hpaired name).exists_filter hu
    exact ⟨f, hf, hof.name, hof.priority, hof.convention⟩
  · rw [(hpaired name).find?_eq_none_iff]
    exact hnone name
  · obtain ⟨g, hg, hof⟩ := (hpaired name).exists_filter hu
    obtain rfl : g = f := Option.some.inj (hg.symm.trans hf)
    refine ⟨congrArg Convention.fpRegister hof.convention, ?_⟩
    intro F _ frame target s key range henabled hc
    exact hof.shows_unwound henabled hc target.memory s
  · simp only [perform, value_install, ExtensionTable.find?_insert, if_true, true_and]
    rfl

end Installation
end JitFrames
