import JitFrames.Proofs.FrameLabels

/-! The filter on the frames of a backtrace, and on frames that it has shown before. It makes one item of each
frame, without regard to the others, and the item lets every question but the one for the name through to its
frame. -/
namespace JitFrames

/-- Takes so many items, one after another; one that fails is an item like the others. -/
def firstItems {α : Type} : Nat → List (Query α) → Traced (List (Except AccessError α))
  | 0, _ | _, [] => return []
  | count + 1, q :: qs => do
    let item ← q.run
    return item :: (← firstItems count qs)

theorem value_firstItems {α : Type} (count : Nat) (qs : List (Query α)) :
    (firstItems count qs).value = (qs.take count).map (·.run.value) := by
  induction count generalizing qs with
  | zero => cases qs <;> rfl
  | succ count ih => cases qs <;> simp [firstItems, ih]

theorem notes_firstItems {α : Type} (count : Nat) (qs : List (Query α)) :
    (firstItems count qs).notes = (qs.take count).flatMap (·.run.notes) := by
  induction count generalizing qs with
  | zero => cases qs <;> rfl
  | succ count ih => cases qs <;> simp [firstItems, ih]

/-- A frame under this many decorations. -/
def Nested (F : Type) : Nat → Type
  | 0 => F
  | depth + 1 => ShownFrame (Nested F depth)

namespace Nested

variable {F : Type}

instance instFrameView [FrameView F] : (depth : Nat) → FrameView (Nested F depth)
  | 0 => inferInstanceAs (FrameView F)
  | depth + 1 =>
    have := instFrameView depth
    inferInstanceAs (FrameView (ShownFrame (Nested F depth)))

def core : {depth : Nat} → Nested F depth → F
  | 0, frame => frame
  | _ + 1, shown => core (ShownFrame.base shown)

def range? : {depth : Nat} → Nested F depth → Option CodeRange
  | 0, _ => none
  | _ + 1, shown => ShownFrame.range? shown

end Nested

/-- The label of the range, or the frame's own name where there is none. -/
def nameUnder {F : Type} [FrameView F] (range? : Option CodeRange) (frame : F) : Option String :=
  match range? with
  | some range => some range.label
  | none => FrameView.function frame

def ReadsAs {F G : Type} [FrameView F] [FrameView G] (shown : G) (frame : F) : Prop :=
  (∀ name, FrameView.readRegister shown name = FrameView.readRegister frame name) ∧
    ∀ addr width, FrameView.readMemory shown addr width = FrameView.readMemory frame addr width

theorem readsAs_of_eq {F G : Type} [FrameView F] [FrameView G] {shown : G} {frame : F}
    (hr : FrameView.registers shown = FrameView.registers frame)
    (hm : FrameView.memory shown = FrameView.memory frame) : ReadsAs shown frame := by
  constructor
  · intro name
    rw [FrameView.readRegister, hr, FrameView.readRegister]
  · intro addr width
    rw [FrameView.readMemory, hm, FrameView.readMemory]

namespace ShownFrame

variable {F : Type}

theorem ext_range {shown other : ShownFrame F} (hb : shown.base = other.base) (hr : shown.range? = other.range?) :
    shown = other := by
  cases shown <;> cases other <;> simp_all [base, range?]

theorem range?_shownWith (cache : FrameCache) (fp : Addr) (frame : F) :
    (shownWith cache fp frame).range? = cache.lookup fp := by
  unfold shownWith
  cases cache.lookup fp <;> rfl

variable [FrameView F]

theorem function_eq (shown : ShownFrame F) :
    FrameView.function shown = nameUnder shown.range? shown.base := by
  cases shown <;> rfl

end ShownFrame

namespace FrameFilter

variable {F : Type} [FrameView F] {filter : FrameFilter} {cache : FrameCache} {frame : F}

/-- The range that the filter finds for a frame, if it is enabled and the frame pointer is bound. -/
def rangeOf? (filter : FrameFilter) (cache : FrameCache) (frame : F) : Option CodeRange :=
  if filter.enabled then (FrameView.registers frame filter.convention.fpRegister).toOption.bind cache.lookup
  else none

/-- The frame pointer, which an enabled filter asks for, cannot be read. -/
def FailsOn (filter : FrameFilter) (frame : F) (e : AccessError) : Prop :=
  filter.enabled = true ∧ FrameView.registers frame filter.convention.fpRegister = .error e

theorem notes_decorate (filter : FrameFilter) (cache : FrameCache) (frame : F) :
    (filter.decorate cache frame).run.notes =
      if filter.enabled then [.access (.register filter.convention.fpRegister)] else [] := by
  have hread : (FrameView.readRegister frame filter.convention.fpRegister).run =
    ⟨FrameView.registers frame filter.convention.fpRegister,
      [.access (.register filter.convention.fpRegister)]⟩ := rfl
  unfold decorate
  cases filter.enabled with
  | false => rfl
  | true =>
    simp only [Bool.not_true, Bool.false_eq_true, if_false, if_true, ExceptT.run_bind, Traced.notes_bind, hread]
    cases FrameView.registers frame filter.convention.fpRegister <;> rfl

theorem decorate_eq_error_iff {e : AccessError} :
    (filter.decorate cache frame).run.value = .error e ↔ filter.FailsOn frame e := by
  unfold FailsOn
  cases he : filter.enabled with
  | false => simp [decorate, he]
  | true =>
    cases hr : FrameView.registers frame filter.convention.fpRegister with
    | ok fp => simp [value_decorate_of_enabled he cache hr]
    | error e' =>
      have hread : (FrameView.readRegister frame filter.convention.fpRegister).run.value = .error e' := hr
      have hvalue : (filter.decorate cache frame).run.value = .error e' := by
        simp only [decorate, he, Bool.not_true, Bool.false_eq_true, if_false, Query.value_bind, hread]
        rfl
      simp [hvalue]

theorem decorate_eq_ok_iff {shown : ShownFrame F} :
    (filter.decorate cache frame).run.value = .ok shown ↔
      (∀ e, ¬ filter.FailsOn frame e) ∧ shown.base = frame ∧ shown.range? = filter.rangeOf? cache frame := by
  unfold FailsOn rangeOf?
  cases he : filter.enabled with
  | false =>
    have hvalue : (filter.decorate cache frame).run.value = .ok (.plain frame) := by simp [decorate, he]
    rw [hvalue]
    constructor
    · intro h
      cases h
      simp [ShownFrame.base, ShownFrame.range?]
    · rintro ⟨-, hb, hr⟩
      exact congrArg _ (ShownFrame.ext_range hb.symm hr.symm)
  | true =>
    cases hr : FrameView.registers frame filter.convention.fpRegister with
    | error e =>
      have hfails : (filter.decorate cache frame).run.value = .error e := decorate_eq_error_iff.2 ⟨he, hr⟩
      simp [hfails]
    | ok fp =>
      rw [value_decorate_of_enabled he cache hr]
      constructor
      · intro h
        cases h
        simp [base_shownWith, ShownFrame.range?_shownWith, Except.toOption]
      · rintro ⟨-, hb, hr⟩
        refine congrArg _ (ShownFrame.ext_range ?_ ?_)
        · rw [base_shownWith, hb]
        · rw [ShownFrame.range?_shownWith, hr]
          rfl

end FrameFilter

/-- Decorates a frame with one filter after another, the last of the list first, each on a cache of its own. -/
def decorateThrough {F : Type} [FrameView F] (frame : F) :
    (layers : List (FrameFilter × FrameCache)) → Query (Nested F layers.length)
  | [] => return frame
  | (filter, cache) :: layers => do
    let inner ← decorateThrough frame layers
    filter.decorate cache inner

namespace Nested

variable {F : Type} [FrameView F] {frame : F}

theorem registers_core {depth : Nat} (shown : Nested F depth) :
    FrameView.registers shown = FrameView.registers shown.core := by
  induction depth with
  | zero => rfl
  | succ depth ih => exact ih (ShownFrame.base shown)

theorem memory_core {depth : Nat} (shown : Nested F depth) :
    FrameView.memory shown = FrameView.memory shown.core := by
  induction depth with
  | zero => rfl
  | succ depth ih => exact ih (ShownFrame.base shown)

theorem failsOn_core_iff {depth : Nat} (shown : Nested F depth) {filter : FrameFilter} {e : AccessError} :
    filter.FailsOn shown e ↔ filter.FailsOn shown.core e := by
  rw [FrameFilter.FailsOn, FrameFilter.FailsOn, registers_core]

theorem rangeOf?_core {depth : Nat} (shown : Nested F depth) (filter : FrameFilter) (cache : FrameCache) :
    filter.rangeOf? cache shown = filter.rangeOf? cache shown.core := by
  rw [FrameFilter.rangeOf?, FrameFilter.rangeOf?, registers_core]

end Nested

section Layers

variable {F : Type} [FrameView F] {frame : F} {layers : List (FrameFilter × FrameCache)}

/-- Of these filters, taken from the last to the first, this error is the first one. -/
def FailsFirst (layers : List (FrameFilter × FrameCache)) (frame : F) (e : AccessError) : Prop :=
  ∃ layer, layer.1.FailsOn frame e ∧ LastBut (fun inner => ∀ e', ¬ inner.1.FailsOn frame e') layers layer

/-- The range of the outermost decoration that has found one. -/
def outermostRange? (layers : List (FrameFilter × FrameCache)) (frame : F) : Option CodeRange :=
  layers.findSome? fun layer => layer.1.rangeOf? layer.2 frame

theorem FailsFirst.exists_failsOn {e : AccessError} (h : FailsFirst layers frame e) :
    ∃ layer ∈ layers, layer.1.FailsOn frame e := by
  obtain ⟨layer, hfails, hlast⟩ := h
  exact ⟨layer, hlast.mem, hfails⟩

theorem failsFirst_cons_iff {layer : FrameFilter × FrameCache} {e : AccessError} :
    FailsFirst (layer :: layers) frame e ↔ FailsFirst layers frame e ∨
      layer.1.FailsOn frame e ∧ ∀ l ∈ layers, ∀ e', ¬ l.1.FailsOn frame e' := exists_lastBut_cons_iff

theorem failsFirst_replicate_iff {layer : FrameFilter × FrameCache} {count : Nat} {e : AccessError} :
    FailsFirst (List.replicate (count + 1) layer) frame e ↔ layer.1.FailsOn frame e := by
  constructor
  · intro h
    obtain ⟨l, hl, hfails⟩ := h.exists_failsOn
    rwa [List.eq_of_mem_replicate hl] at hfails
  · intro hfails
    exact ⟨layer, hfails, List.replicate count layer, [], List.replicate_succ', by simp⟩

theorem outermostRange?_replicate (layer : FrameFilter × FrameCache) (count : Nat) (frame : F) :
    outermostRange? (List.replicate (count + 1) layer) frame = layer.1.rangeOf? layer.2 frame := by
  rw [outermostRange?, List.findSome?_replicate, if_neg (Nat.succ_ne_zero count)]

theorem value_decorateThrough_cons (filter : FrameFilter) (cache : FrameCache) :
    (decorateThrough frame ((filter, cache) :: layers)).run.value =
      (decorateThrough frame layers).run.value >>= fun inner => (filter.decorate cache inner).run.value :=
  Query.value_bind _ _

theorem decorateThrough_ok {shown : Nested F layers.length}
    (h : (decorateThrough frame layers).run.value = .ok shown) :
    shown.core = frame ∧ (∀ layer ∈ layers, ∀ e, ¬ layer.1.FailsOn frame e) ∧
      shown.range? = layers.head?.bind (fun layer => layer.1.rangeOf? layer.2 frame) ∧
      FrameView.function shown = nameUnder (outermostRange? layers frame) frame := by
  induction layers with
  | nil =>
    obtain rfl : frame = shown := Except.ok.inj h
    exact ⟨rfl, by simp, rfl, rfl⟩
  | cons layer layers ih =>
    obtain ⟨filter, cache⟩ := layer
    rw [value_decorateThrough_cons] at h
    cases hi : (decorateThrough frame layers).run.value with
    | error e => simp [hi, bind, Except.bind] at h
    | ok inner =>
      obtain ⟨rfl, hfails, -, hname⟩ := ih hi
      rw [hi] at h
      obtain ⟨hf, rfl, hr⟩ := FrameFilter.decorate_eq_ok_iff.1 h
      have hrange : ShownFrame.range? shown = filter.rangeOf? cache (ShownFrame.base shown).core :=
        hr.trans (Nested.rangeOf?_core _ _ _)
      refine ⟨rfl, List.forall_mem_cons.2 ⟨fun e => ?_, hfails⟩, hrange, ?_⟩
      · rw [← Nested.failsOn_core_iff]
        exact hf e
      · refine (ShownFrame.function_eq shown).trans ?_
        rw [hrange, outermostRange?, List.findSome?_cons]
        cases filter.rangeOf? cache (ShownFrame.base shown).core with
        | some range => rfl
        | none => exact hname

theorem decorateThrough_eq_error_iff {e : AccessError} :
    (decorateThrough frame layers).run.value = .error e ↔ FailsFirst layers frame e := by
  induction layers generalizing e with
  | nil =>
    refine iff_of_false (fun h => nomatch h) fun h => ?_
    obtain ⟨layer, hl, -⟩ := h.exists_failsOn
    simp at hl
  | cons layer layers ih =>
    obtain ⟨filter, cache⟩ := layer
    rw [value_decorateThrough_cons, failsFirst_cons_iff]
    cases hi : (decorateThrough frame layers).run.value with
    | error e' =>
      have hfirst : FailsFirst layers frame e ↔ e' = e := ih.symm.trans (by rw [hi, Except.error.injEq])
      obtain ⟨l, hl, hfails⟩ := (ih.1 hi).exists_failsOn
      rw [hfirst, or_iff_left fun ⟨_, hnone⟩ => hnone l hl e' hfails]
      exact ⟨fun h => Except.error.inj h, fun h => h ▸ rfl⟩
    | ok inner =>
      obtain ⟨hcore, hfails, -⟩ := decorateThrough_ok hi
      -- Nothing under it has failed, and what it asks is the frame that those have left as it is.
      have hfirst : ¬ FailsFirst layers frame e := fun h => by
        obtain ⟨l, hl, hf⟩ := h.exists_failsOn
        exact hfails l hl e hf
      have hvalue : (filter.decorate cache inner).run.value = .error e ↔ filter.FailsOn frame e := by
        rw [FrameFilter.decorate_eq_error_iff, Nested.failsOn_core_iff, hcore]
      rw [or_iff_right hfirst, and_iff_left hfails]
      exact hvalue

end Layers

namespace FrameFilter

variable {F : Type} [FrameView F]

theorem decorate_again (filter : FrameFilter) (cache : FrameCache) (frame : F) (count : Nat) :
    (∀ e, (decorateThrough frame (List.replicate (count + 1) (filter, cache))).run.value = .error e ↔
      (filter.decorate cache frame).run.value = .error e) ∧
    ∀ shown again, (filter.decorate cache frame).run.value = .ok shown →
      (decorateThrough frame (List.replicate (count + 1) (filter, cache))).run.value = .ok again →
      again.core = frame ∧ again.range? = shown.range? ∧
        FrameView.function again = FrameView.function shown ∧ ReadsAs again shown := by
  constructor
  · intro e
    rw [decorateThrough_eq_error_iff, failsFirst_replicate_iff, decorate_eq_error_iff]
  · intro shown again hshown hagain
    obtain ⟨-, rfl, hr⟩ := decorate_eq_ok_iff.1 hshown
    obtain ⟨hcore, -, hrange, hname⟩ := decorateThrough_ok hagain
    refine ⟨hcore, hrange.trans hr.symm, ?_, ?_⟩
    · rw [hname, ShownFrame.function_eq, hr, outermostRange?_replicate]
    · refine readsAs_of_eq ((Nested.registers_core again).trans ?_) ((Nested.memory_core again).trans ?_)
      · rw [hcore]
        rfl
      · rw [hcore]
        rfl

theorem notes_firstItems_decorateAll (filter : FrameFilter) (cache : FrameCache) (frames : List F)
    (count : Nat) : (firstItems count (filter.decorateAll cache frames)).notes =
      if filter.enabled then
        List.replicate (min count frames.length) (.access (.register filter.convention.fpRegister)) else [] := by
  rw [notes_firstItems, decorateAll, ← List.map_take, List.flatMap_map]
  simp only [notes_decorate]
  cases filter.enabled with
  | false => simp
  | true =>
    simp only [if_true]
    rw [← List.map_eq_flatMap, List.map_const', List.length_take]

theorem firstItems_decorateAll_append (filter : FrameFilter) (cache : FrameCache) {frames : List F}
    {count : Nat} (h : count ≤ frames.length) (later : List F) :
    firstItems count (filter.decorateAll cache (frames ++ later)) =
      firstItems count (filter.decorateAll cache frames) := by
  apply Traced.ext <;>
    simp only [value_firstItems, notes_firstItems, decorateAll, ← List.map_take, List.take_append_of_le_length h]

/-- Each frame gives one item, whatever the others give. An item that does not fail answers as its frame does
but for the name; under many decorations the outermost range gives that. -/
theorem filter_is_framewise {F : Type} [FrameView F] (filter : FrameFilter) (cache : FrameCache) :
    (∀ frames : List F, (filter.decorateAll cache frames).length = frames.length ∧
      ∀ i : Nat, (filter.decorateAll cache frames)[i]? = frames[i]?.map (filter.decorate cache)) ∧
    (∀ (frames : List F) (count : Nat),
      (firstItems count (filter.decorateAll cache frames)).value =
        (frames.take count).map (fun frame => (filter.decorate cache frame).run.value) ∧
      (firstItems count (filter.decorateAll cache frames)).notes =
        (if filter.enabled then
          List.replicate (min count frames.length) (.access (.register filter.convention.fpRegister)) else []) ∧
      (count ≤ frames.length → ∀ later, firstItems count (filter.decorateAll cache (frames ++ later)) =
        firstItems count (filter.decorateAll cache frames))) ∧
    (∀ (frame : F) (e : AccessError),
      (filter.decorate cache frame).run.value = .error e ↔ filter.FailsOn frame e) ∧
    (∀ (frame : F) (shown : ShownFrame F), (filter.decorate cache frame).run.value = .ok shown →
      shown.base = frame ∧ ReadsAs shown frame ∧ shown.range? = filter.rangeOf? cache frame ∧
        FrameView.function shown = nameUnder (filter.rangeOf? cache frame) frame) ∧
    (∀ (frame : F) (count : Nat),
      let decorations := decorateThrough frame (List.replicate (count + 1) (filter, cache))
      (∀ e, decorations.run.value = .error e ↔ (filter.decorate cache frame).run.value = .error e) ∧
      ∀ shown again, (filter.decorate cache frame).run.value = .ok shown → decorations.run.value = .ok again →
        again.core = frame ∧ again.range? = shown.range? ∧
          FrameView.function again = FrameView.function shown ∧ ReadsAs again shown) ∧
    ∀ (frame : F) (layers : List (FrameFilter × FrameCache)),
      (∀ e, (decorateThrough frame layers).run.value = .error e ↔ FailsFirst layers frame e) ∧
      ∀ shown, (decorateThrough frame layers).run.value = .ok shown →
        shown.core = frame ∧ ReadsAs shown frame ∧
          FrameView.function shown = nameUnder (outermostRange? layers frame) frame := by
  refine ⟨fun frames => ⟨by simp [decorateAll], fun i => by simp [decorateAll]⟩,
    fun frames count => ⟨?_, ?_, ?_⟩, fun frame e => decorate_eq_error_iff, fun frame shown hshown => ?_,
    fun frame count => decorate_again filter cache frame count,
    fun frame layers => ⟨fun e => decorateThrough_eq_error_iff, fun shown hshown => ?_⟩⟩
  · simp [value_firstItems, decorateAll, ← List.map_take]
  · exact notes_firstItems_decorateAll filter cache frames count
  · intro hcount later
    exact firstItems_decorateAll_append filter cache hcount later
  · obtain ⟨-, rfl, hr⟩ := decorate_eq_ok_iff.1 hshown
    exact ⟨rfl, readsAs_of_eq rfl rfl, hr, hr ▸ ShownFrame.function_eq shown⟩
  · obtain ⟨rfl, -, -, hname⟩ := decorateThrough_ok hshown
    exact ⟨rfl, readsAs_of_eq (Nested.registers_core shown) (Nested.memory_core shown), hname⟩

/-- A frame under two decorations: the outer one has found no range, so the label is that of the inner one. -/
theorem filter_is_framewise_on_two_layers :
    let filter := ofConfig {}
    let frame : RecordedFrame := { values := [("rbp", 0x7000)] }
    let layers := [(filter, .empty), (filter, FrameCache.empty.insert 0x7000 ⟨0x500000, 0x500100⟩)]
    ∃ shown, (decorateThrough frame layers).run.value = .ok shown ∧
      shown.core = frame ∧ FrameView.function shown = some "JIT[0x500000, 0x500100]" := by
  intro filter frame layers
  obtain ⟨-, -, -, -, -, hlayers⟩ := filter_is_framewise (F := RecordedFrame) filter .empty
  refine ⟨_, rfl, ?_⟩
  obtain ⟨hcore, -, hname⟩ := (hlayers frame layers).2 _ rfl
  refine ⟨hcore, hname.trans ?_⟩
  have hrange : outermostRange? layers frame = some ⟨0x500000, 0x500100⟩ := by rfl
  rw [hrange]
  decide

end FrameFilter
end JitFrames
