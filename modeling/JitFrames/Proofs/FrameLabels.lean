import JitFrames.Proofs.SessionHistory
import JitFrames.Recording

/-! The label that a frame is shown under. The filter finds a frame by its frame pointer and by nothing else, so
a frame has the label of whatever frame was classified last with that frame pointer since the target stopped. -/
namespace JitFrames

section Display

variable {F : Type}

/-- How an enabled filter shows a frame with this frame pointer. -/
def shownWith (cache : FrameCache) (fp : Addr) (frame : F) : ShownFrame F :=
  match cache.lookup fp with
  | some range => .jit frame range
  | none => .plain frame

theorem shownWith_eq_jit_iff {cache : FrameCache} {fp : Addr} {frame : F} {range : CodeRange} :
    shownWith cache fp frame = .jit frame range ↔ cache.lookup fp = some range := by
  unfold shownWith
  cases cache.lookup fp <;> simp

theorem shownWith_eq_plain_iff {cache : FrameCache} {fp : Addr} {frame : F} :
    shownWith cache fp frame = .plain frame ↔ cache.lookup fp = none := by
  unfold shownWith
  cases cache.lookup fp <;> simp

theorem base_shownWith (cache : FrameCache) (fp : Addr) (frame : F) :
    (shownWith cache fp frame).base = frame := by
  unfold shownWith
  cases cache.lookup fp <;> rfl

variable [FrameView F]

/-- The frame is shown under the label of the first function that contains `pc`. -/
def LabelledFor (chain : FunctionChain) (pc : Addr) (frame : F) (shown : ShownFrame F) : Prop :=
  ∃ range, chain.FirstMatch pc range ∧ shown = .jit frame range ∧ FrameView.function shown = some range.label

def KeepsName (frame : F) (shown : ShownFrame F) : Prop :=
  shown = .plain frame ∧ FrameView.function shown = FrameView.function frame

/-- Each of these frames has the program counter and the frame pointer of the identity at its place. -/
def HaveRegisters (conv : Convention) (frames : List F) (ids : List FrameIdentity) : Prop :=
  frames.map (fun f => (FrameView.registers f conv.pcRegister, FrameView.registers f conv.fpRegister)) =
    ids.map fun id => (.ok id.programCounter, .ok id.stackPointer)

theorem FrameFilter.value_decorate_of_enabled {filter : FrameFilter} (h : filter.enabled = true)
    (cache : FrameCache) {frame : F} {fp : Addr}
    (hfp : FrameView.registers frame filter.convention.fpRegister = .ok fp) :
    (filter.decorate cache frame).run.value = .ok (shownWith cache fp frame) := by
  have hread : (FrameView.readRegister frame filter.convention.fpRegister).run.value = .ok fp := hfp
  simp only [decorate, h, Bool.not_true, Bool.false_eq_true, if_false, Query.value_bind, hread]
  rfl

theorem FrameFilter.value_decorate (c : Config) (cache : FrameCache) {frame : F} {fp : Addr}
    (hfp : FrameView.registers frame c.convention.fpRegister = .ok fp) :
    ((ofConfig c).decorate cache frame).run.value = .ok (shownWith cache fp frame) :=
  value_decorate_of_enabled rfl cache hfp

/-- What the filter makes of the frames of a backtrace, one after another. -/
def FrameFilter.shownAll (filter : FrameFilter) (cache : FrameCache) (frames : List F) :
    List (Except AccessError (ShownFrame F)) := (filter.decorateAll cache frames).map (·.run.value)

theorem FrameFilter.length_shownAll (filter : FrameFilter) (cache : FrameCache) (frames : List F) :
    (filter.shownAll cache frames).length = frames.length := by
  simp [shownAll, decorateAll]

theorem HaveRegisters.length_eq {conv : Convention} {frames : List F} {ids : List FrameIdentity}
    (h : HaveRegisters conv frames ids) : frames.length = ids.length := by
  have hl := congrArg List.length h
  simpa only [List.length_map] using hl

theorem HaveRegisters.fp_eq {conv : Convention} {frames : List F} {ids : List FrameIdentity}
    (h : HaveRegisters conv frames ids) {i : Nat} {frame : F} {id : FrameIdentity}
    (hframe : frames[i]? = some frame) (hid : ids[i]? = some id) :
    FrameView.registers frame conv.fpRegister = .ok id.stackPointer := by
  have hi := congrArg (·[i]?) h
  simp only [List.getElem?_map, hframe, hid, Option.map_some] at hi
  exact congrArg Prod.snd (Option.some.inj hi)

theorem HaveRegisters.exists_fp {conv : Convention} {frames : List F} {ids : List FrameIdentity}
    (h : HaveRegisters conv frames ids) {frame : F} (hframe : frame ∈ frames) :
    ∃ fp, FrameView.registers frame conv.fpRegister = .ok fp := by
  obtain ⟨i, hi⟩ := List.mem_iff_getElem?.1 hframe
  have hlt : i < ids.length := h.length_eq ▸ (List.getElem?_eq_some_iff.1 hi).1
  exact ⟨_, h.fp_eq hi (List.getElem?_eq_getElem hlt)⟩

theorem HaveRegisters.shown_eq {c : Config} {frames : List F} {ids : List FrameIdentity}
    (h : HaveRegisters c.convention frames ids) (cache : FrameCache) {i : Nat} {frame : F} {id : FrameIdentity}
    (hframe : frames[i]? = some frame) (hid : ids[i]? = some id) :
    ((FrameFilter.ofConfig c).shownAll cache frames)[i]? =
      some (.ok (shownWith cache id.stackPointer frame)) := by
  have hfp := h.fp_eq hframe hid
  have hvalue := FrameFilter.value_decorate c cache hfp
  simp only [FrameFilter.shownAll, FrameFilter.decorateAll, List.map_map, List.getElem?_map, hframe,
    Option.map_some, Function.comp, hvalue]

theorem HaveRegisters.shown_of_empty {c : Config} {frames : List F} {ids : List FrameIdentity}
    (h : HaveRegisters c.convention frames ids) :
    (FrameFilter.ofConfig c).shownAll .empty frames = frames.map fun frame => .ok (.plain frame) := by
  rw [FrameFilter.shownAll, FrameFilter.decorateAll, List.map_map]
  apply List.map_congr_left
  intro frame hframe
  obtain ⟨fp, hfp⟩ := h.exists_fp hframe
  exact FrameFilter.value_decorate c .empty hfp

end Display

/-- Of the frames with the frame pointer `fp` it is the last. -/
def LastWith (ids : List FrameIdentity) (fp : Addr) (g : FrameIdentity) : Prop :=
  g.stackPointer = fp ∧ LastBut (·.stackPointer ≠ fp) ids g

theorem LastWith.findRev?_eq {ids : List FrameIdentity} {fp : Addr} {g : FrameIdentity}
    (h : LastWith ids fp g) : ids.findRev? (·.stackPointer == fp) = some g :=
  h.2.findRev?_eq (by simpa using h.1) fun f hf => by simpa using hf

theorem exists_lastWith {ids : List FrameIdentity} {fp : Addr} (h : ∃ g ∈ ids, g.stackPointer = fp) :
    ∃ g, LastWith ids fp g := by
  have hlast : ∃ g ∈ ids, ¬ g.stackPointer ≠ fp := by simpa using h
  obtain ⟨g, hg, hfp⟩ := exists_lastBut hlast
  exact ⟨g, Decidable.not_not.1 hfp, hg⟩

theorem mem_dropLast_iff {start g : FrameIdentity} {callers : List FrameIdentity} :
    g ∈ (start :: callers).dropLast ↔ ∃ j < callers.length, (start :: callers)[j]? = some g := by
  rw [List.mem_iff_getElem?]
  refine exists_congr fun j => ?_
  rw [List.getElem?_dropLast, List.length_cons, Nat.add_sub_cancel]
  by_cases hj : j < callers.length <;> simp [hj]

theorem place_inj {ids : List FrameIdentity} (hd : (ids.map (·.stackPointer)).Nodup) {i j : Nat}
    {f g : FrameIdentity} (hf : ids[i]? = some f) (hg : ids[j]? = some g)
    (h : f.stackPointer = g.stackPointer) : i = j := by
  have hi : i < (ids.map (·.stackPointer)).length := by
    rw [List.length_map]
    exact (List.getElem?_eq_some_iff.1 hf).1
  refine (List.getElem?_inj hi hd).1 ?_
  simp [List.getElem?_map, hf, hg, h]

theorem lastWith_of_nodup {ids : List FrameIdentity} (hd : (ids.map (·.stackPointer)).Nodup)
    {f : FrameIdentity} (hf : f ∈ ids.dropLast) : LastWith ids.dropLast f.stackPointer f := by
  obtain ⟨g, hg⟩ := exists_lastWith ⟨f, hf, rfl⟩
  obtain ⟨i, hi⟩ := List.mem_iff_getElem?.1 (List.dropLast_subset _ hf)
  obtain ⟨j, hj⟩ := List.mem_iff_getElem?.1 (List.dropLast_subset _ hg.2.mem)
  have hij : j = i := place_inj hd hj hi hg.1
  have hgf : g = f := by
    rw [hij, hi] at hj
    exact (Option.some.inj hj).symm
  exact hgf ▸ hg

theorem Unwinder.bindsFrames_of_walk {u : Unwinder} (h : u.convention.pcRegister ≠ u.convention.fpRegister)
    {target : Target} {start : FrameIdentity} {limit : Nat} {callers : List FrameIdentity} {s r : Session}
    (hwalk : ((u.walk target start.programCounter start.stackPointer limit).on s).value = (.ok callers, r)) :
    u.BindsFrames target (start :: callers).dropLast s r := by
  rw [value_walk] at hwalk
  obtain ⟨steps, g, hw, rfl, -⟩ := ((value_callersFrom_iff h limit start s r).1 callers).1 hwalk
  exact hw.bindsFrames h

namespace Unwinder.BindsFrames

variable {u : Unwinder} {target : Target} {unwound : List FrameIdentity} {s : Session} {fp : Addr}
variable {F : Type} [FrameView F]

theorem labelledFor (hb : u.BindsFrames target unwound {} s) {g : FrameIdentity} (hg : LastWith unwound fp g)
    (frame : F) :
    LabelledFor (u.registry target).chain g.programCounter frame (shownWith s.cache fp frame) := by
  have hkey := hb.2 fp
  rw [hg.findRev?_eq] at hkey
  obtain ⟨range, hm, hl⟩ := hkey
  have hshown : shownWith s.cache fp frame = .jit frame range := shownWith_eq_jit_iff.2 hl
  exact ⟨range, hm, hshown, by rw [hshown]; rfl⟩

theorem keepsName (hb : u.BindsFrames target unwound {} s) (hfp : ¬ ∃ g ∈ unwound, g.stackPointer = fp)
    (frame : F) : KeepsName frame (shownWith s.cache fp frame) := by
  have hnone : unwound.findRev? (·.stackPointer == fp) = none := by simpa using hfp
  have hkey := hb.2 fp
  rw [hnone] at hkey
  have hshown : shownWith s.cache fp frame = .plain frame := shownWith_eq_plain_iff.2 hkey
  exact ⟨hshown, by rw [hshown]; rfl⟩

theorem exists_jit_iff (hb : u.BindsFrames target unwound {} s) (frame : F) :
    (∃ range, shownWith s.cache fp frame = .jit frame range) ↔ ∃ g ∈ unwound, g.stackPointer = fp := by
  constructor
  · rintro ⟨range, hr⟩
    apply Decidable.byContradiction
    intro hfp
    have hp := (hb.keepsName hfp frame).1
    rw [hr] at hp
    cases hp
  · intro hfp
    obtain ⟨g, hg⟩ := exists_lastWith hfp
    obtain ⟨range, -, hr, -⟩ := hb.labelledFor hg frame
    exact ⟨range, hr⟩

end Unwinder.BindsFrames

/-- The frame a walk starts on and its callers are shown in order. A frame is labelled exactly where an unwound
frame has its frame pointer, for the last such; behind a resume none is. -/
theorem walked_frames_labelled (c : Config) (h : c.convention.pcRegister ≠ c.convention.fpRegister)
    (target : Target) (start : FrameIdentity) (limit : Nat) (callers : List FrameIdentity) (s : Session)
    (hwalk : ((({ config := c } : Unwinder).walk target start.programCounter start.stackPointer limit).on
      {}).value = (.ok callers, s))
    {F : Type} [FrameView F] (frames : List F)
    (hframes : HaveRegisters c.convention frames (start :: callers)) :
    let chain := (({ config := c } : Unwinder).registry target).chain
    let unwound := (start :: callers).dropLast
    let items := (FrameFilter.ofConfig c).shownAll s.cache frames
    items.length = callers.length + 1 ∧
    (∀ (i : Nat) (frame : F) (id : FrameIdentity), frames[i]? = some frame → (start :: callers)[i]? = some id →
      ∃ shown : ShownFrame F, items[i]? = some (.ok shown) ∧ shown.base = frame ∧
        ((∃ range, shown = .jit frame range) ↔ ∃ g ∈ unwound, g.stackPointer = id.stackPointer) ∧
        (∀ g, LastWith unwound id.stackPointer g → LabelledFor chain g.programCounter frame shown) ∧
        ((¬ ∃ g ∈ unwound, g.stackPointer = id.stackPointer) → KeepsName frame shown)) ∧
    (((start :: callers).map (·.stackPointer)).Nodup →
      ∀ (i : Nat) (frame : F) (id : FrameIdentity), frames[i]? = some frame → (start :: callers)[i]? = some id →
        ∃ shown : ShownFrame F, items[i]? = some (.ok shown) ∧
          (i < callers.length → LabelledFor chain id.programCounter frame shown) ∧
          (i = callers.length → KeepsName frame shown)) ∧
    ∀ kind, (FrameFilter.ofConfig c).shownAll (s.notify (.resumed kind)).value.cache frames =
      frames.map fun frame => .ok (.plain frame) := by
  intro chain unwound items
  have hregs : ({ config := c } : Unwinder).convention.pcRegister ≠
      ({ config := c } : Unwinder).convention.fpRegister := h
  have hb := Unwinder.bindsFrames_of_walk hregs hwalk
  have hitem : ∀ {i : Nat} {frame : F} {id : FrameIdentity}, frames[i]? = some frame →
      (start :: callers)[i]? = some id → items[i]? = some (.ok (shownWith s.cache id.stackPointer frame)) :=
    fun hframe hid => hframes.shown_eq s.cache hframe hid
  refine ⟨?_, fun i frame id hframe hid => ?_, fun hd i frame id hframe hid => ?_, fun kind => ?_⟩
  · have hl := hframes.length_eq
    rw [List.length_cons] at hl
    exact (FrameFilter.length_shownAll _ _ _).trans hl
  · exact ⟨_, hitem hframe hid, base_shownWith _ _ _, hb.exists_jit_iff frame,
      fun g hg => hb.labelledFor hg frame, fun hfp => hb.keepsName hfp frame⟩
  · refine ⟨_, hitem hframe hid, fun hi => ?_, fun hi => ?_⟩
    · have hm : id ∈ unwound := mem_dropLast_iff.2 ⟨i, hi, hid⟩
      exact hb.labelledFor (lastWith_of_nodup hd hm) frame
    · refine hb.keepsName ?_ frame
      rintro ⟨g, hg, hfp⟩
      obtain ⟨j, hj, hgj⟩ := mem_dropLast_iff.1 hg
      have hij : j = i := place_inj hd hgj hid hfp
      omega
  · exact hframes.shown_of_empty

/-- Two frames that are each other's callers, in two functions: the first is labelled for the later of the two
steps taken on its frame pointer. -/
theorem walked_frames_labelled_on_mutual_callers :
    let words : List (Addr × UInt64) :=
      [(0x8000, 0x9000), (0x9000, 0xa000), (0xa000, 0x500000), (0xa008, 0x500100), (0xa010, 0xb000),
       (0xb000, 0x500100), (0xb008, 0x500200), (0xb010, 0), (0x7000, 0x7100), (0x7008, 0x500190),
       (0x7100, 0x7000), (0x7108, 0x500110)]
    let target := ({ memory := { words }, symbols := [("emacs_jit_context", 0x8000)] } : RecordedTarget).target
    let ids : List FrameIdentity := [⟨0x7000, 0x500010⟩, ⟨0x7100, 0x500190⟩, ⟨0x7000, 0x500110⟩,
      ⟨0x7100, 0x500190⟩]
    let frames := ids.map fun id =>
      ({ values := [("rip", id.programCounter), ("rbp", id.stackPointer)] } : RecordedFrame)
    let chain := (({ config := {} } : Unwinder).registry target).chain
    let s := ((({ config := {} } : Unwinder).walk target 0x500010 0x7000 3).on {}).value.2
    HaveRegisters Convention.x86_64 frames ids ∧ ∃ frame shown, frames[0]? = some frame ∧
      ((FrameFilter.ofConfig {}).shownAll s.cache frames)[0]? = some (.ok shown) ∧
      LabelledFor chain 0x500110 frame shown ∧ FrameView.function shown = some "JIT[0x500100, 0x500200]" := by
  intro words target ids frames chain s
  have hregs : HaveRegisters Convention.x86_64 frames ids := by rfl
  have hwalk : ((({ config := {} } : Unwinder).walk target 0x500010 0x7000 3).on {}).value =
    (.ok [⟨0x7100, 0x500190⟩, ⟨0x7000, 0x500110⟩, ⟨0x7100, 0x500190⟩], s) := by rfl
  have hwalked := walked_frames_labelled {} (by decide) target ⟨0x7000, 0x500010⟩ 3 _ s hwalk frames hregs
  obtain ⟨shown, hshown, -, -, hlabel, -⟩ := hwalked.2.1 0 _ _ rfl rfl
  have hlast : LastWith (List.dropLast ids) 0x7000 ⟨0x7000, 0x500110⟩ :=
    ⟨rfl, [⟨0x7000, 0x500010⟩, ⟨0x7100, 0x500190⟩], [], rfl, by simp⟩
  have hl := hlabel _ hlast
  refine ⟨hregs, _, shown, rfl, hshown, hl, ?_⟩
  obtain ⟨range, hm, -, hf⟩ := hl
  have hr : (chain.scan 0x500110).run.value = .ok (some range) := FunctionChain.value_scan_eq_match_iff.2 hm
  have hs : (chain.scan 0x500110).run.value = .ok (some ⟨0x500100, 0x500200⟩) := by rfl
  rw [hf]
  rw [hs] at hr
  obtain rfl : ⟨0x500100, 0x500200⟩ = range := by simpa using hr
  decide

end JitFrames
