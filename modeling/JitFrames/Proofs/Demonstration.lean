import JitFrames.Demo
import JitFrames.Proofs.FrameLabels
import JitFrames.Proofs.ListInMemory
import JitFrames.Proofs.StoredBlocks
import JitFrames.Proofs.WalkLimits
import Mathlib.Data.List.Induction
import Mathlib.Data.Nat.Digits.Defs

/-! The demonstration, for every setting of its limit and wherever the process has put its parts. The main
statement is what is printed: the frames up to the first that was not unwound, those before it under the labels
of their functions. -/
namespace JitFrames

namespace Count

/-- The text is the decimal numeral of a word: one plus sign or none, and then digits, at least one. -/
def Denotes (s : String) (n : Nat) : Prop :=
  ∃ sign ds, s.toList = sign ++ ds ∧ (sign = [] ∨ sign = ['+']) ∧ ds ≠ [] ∧ (∀ c ∈ ds, '0' ≤ c ∧ c ≤ '9') ∧
    n = Nat.ofDigits 10 (ds.reverse.map fun c => c.toNat - '0'.toNat) ∧ n < UInt64.size

theorem value_eq_ofDigits (ds : List Char) :
    value ds = Nat.ofDigits 10 (ds.reverse.map fun c => c.toNat - '0'.toNat) := by
  induction ds using List.reverseRecOn with
  | nil => rfl
  | append_singleton ds c ih =>
    have hvalue : value (ds ++ [c]) = 10 * value ds + (c.toNat - '0'.toNat) := by
      simp [value, List.foldl_append]
    rw [hvalue, List.reverse_concat, List.map_cons, Nat.ofDigits_cons, ih, Nat.add_comm]

theorem isDigit_iff {c : Char} : c.isDigit = true ↔ '0' ≤ c ∧ c ≤ '9' := by
  simp [Char.isDigit, Char.le_def]

theorem exists_sign (s : String) : ∃ sign, s.toList = sign ++ digits s ∧ (sign = [] ∨ sign = ['+']) := by
  unfold digits
  split
  · rename_i cs h
    exact ⟨['+'], h, .inr rfl⟩
  · exact ⟨[], rfl, .inl rfl⟩

/-- Digits do not start with a sign, so they are what the reader takes for the digits. -/
theorem digits_eq {s : String} {sign ds : List Char} (h : s.toList = sign ++ ds) (hsign : sign = [] ∨ sign = ['+'])
    (hdigits : ∀ c ∈ ds, '0' ≤ c ∧ c ≤ '9') : digits s = ds := by
  unfold digits
  rcases hsign with rfl | rfl
  · rw [h, List.nil_append]
    split
    · exact absurd (hdigits '+' List.mem_cons_self) (by decide)
    · rfl
  · rw [h]
    rfl

theorem read?_eq_some_iff {s : String} {n : Nat} : read? s = some n ↔ Denotes s n := by
  simp only [read?, List.all_eq_true, isDigit_iff, Option.ite_none_right_eq_some, Option.some.injEq]
  constructor
  · rintro ⟨⟨hne, hdigits, hlt⟩, rfl⟩
    obtain ⟨sign, hs, hsign⟩ := exists_sign s
    exact ⟨sign, digits s, hs, hsign, hne, hdigits, value_eq_ofDigits _, hlt⟩
  · rintro ⟨sign, ds, hs, hsign, hne, hdigits, rfl, hlt⟩
    rw [digits_eq hs hsign hdigits, value_eq_ofDigits]
    exact ⟨⟨hne, hdigits, hlt⟩, rfl⟩

/-- Zeros in front do not count against the size, and there is no negative numeral. -/
example : read? "+000000000000000000000018446744073709551615" = some 18446744073709551615 ∧
    read? "18446744073709551616" = none ∧ read? "-0" = none ∧ read? "+" = none := by decide

end Count

namespace Demo

/-- The limit that a setting asks for: the number that it denotes, and 64 where it denotes none or is not there. -/
def Asks (setting : Option String) (n : Nat) : Prop :=
  (∃ s, setting = some s ∧ Count.Denotes s n) ∨ n = 64 ∧ ∀ s, setting = some s → ∀ m, ¬ Count.Denotes s m

theorem asks_iff {setting : Option String} {n : Nat} : Asks setting n ↔ n = limit setting := by
  simp only [Asks, ← Count.read?_eq_some_iff]
  cases setting with
  | none => simp [limit, defaultLimit]
  | some s =>
    cases h : Count.read? s with
    | none => simp [limit, defaultLimit, h]
    | some m => simp [limit, h, eq_comm]

namespace Places

variable (p : Places)

def innerFrame : FrameIdentity where
  stackPointer := p.stack
  programCounter := p.code + 0x10

def outerFrame : FrameIdentity where
  stackPointer := p.stack + 64
  programCounter := p.code + 0x140

def callerFrame : FrameIdentity where
  stackPointer := Addr.null
  programCounter := p.caller

def frames : List FrameIdentity := [p.innerFrame, p.outerFrame, p.callerFrame]

def inner : ListedFunction where
  node := p.innerNode
  entryPoint := p.code
  codeEnd := p.code + 0x100

def outer : ListedFunction where
  node := p.outerNode
  entryPoint := p.code + 0x100
  codeEnd := p.code + 0x200

def functions : List ListedFunction := [p.inner, p.outer]

/-- What is known when so many frames have been unwound. -/
def sessionAfter : Nat → Session
  | 0 => {}
  | 1 => Session.record {} (some (p.innerFrame.stackPointer, p.inner.range))
  | _ + 2 => (Session.record {} (some (p.innerFrame.stackPointer, p.inner.range))).record
      (some (p.outerFrame.stackPointer, p.outer.range))

end Places

/-- The unwinder and the filter that the configuration installs. -/
def unwinder : Unwinder := { config }

def filter : FrameFilter := .ofConfig config

section Display

def printedName (image : ProcessImage) (cache : FrameCache) (id : FrameIdentity) : String :=
  match cache.lookup id.stackPointer with
  | some range => range.label
  | none => (image.symbolAt id.programCounter).getD "??"

def printedLine (index : Nat) (pc : Addr) (name : String) : String :=
  "#" ++ toString index ++ " " ++ pc.padded ++ " in " ++ name

def liveFrame (image : ProcessImage) (id : FrameIdentity) : LiveFrame :=
  ⟨image, id.programCounter, id.stackPointer⟩

variable (image : ProcessImage) (cache : FrameCache)

theorem value_frameLine (index : Nat) (id : FrameIdentity) :
    (frameLine index (filter.decorate cache (liveFrame image id))).run.value =
      .ok (printedLine index id.programCounter (printedName image cache id)) := by
  have hfp : FrameView.registers (liveFrame image id) config.convention.fpRegister = .ok id.stackPointer := rfl
  have hshown := FrameFilter.value_decorate config cache hfp
  rw [frameLine, Query.value_bind, filter, hshown]
  simp only [shownWith, printedName]
  cases cache.lookup id.stackPointer <;> rfl

theorem value_printed_append {asks : List (Query String)} {lines : List String}
    (h : asks.map (·.run.value) = lines.map .ok) (rest : List (Query String)) :
    (printed (asks ++ rest)).value = (lines ++ (printed rest).value.1, (printed rest).value.2) := by
  induction asks generalizing lines with
  | nil =>
    obtain rfl : [] = lines := (List.map_eq_nil_iff.1 h.symm).symm
    rfl
  | cons ask asks ih =>
    cases lines with
    | nil => cases h
    | cons line lines =>
      have hline : ask.run.value = .ok line := (List.cons.inj h).1
      rw [List.cons_append, printed, Traced.value_bind, hline]
      dsimp only
      rw [Traced.value_bind, ih (List.cons.inj h).2]
      rfl

/-- Lines in front of one that fails are printed, and none behind it. -/
theorem value_printed_of_failed {asks : List (Query String)} {lines : List String}
    (h : asks.map (·.run.value) = lines.map .ok) {ask : Query String} {e : AccessError}
    (hask : ask.run.value = .error e) (rest : List (Query String)) :
    (printed (asks ++ ask :: rest)).value = (lines, false) := by
  have hend : (printed (ask :: rest)).value = ([], false) := by
    rw [printed, Traced.value_bind, hask]
    rfl
  rw [value_printed_append h, hend, List.append_nil]

theorem value_printed_frames (ids : List FrameIdentity) :
    (printed ((filter.decorateAll cache (ids.map (liveFrame image))).mapIdx frameLine)).value =
      (ids.mapIdx fun i id => printedLine i id.programCounter (printedName image cache id), true) := by
  have hlines : ((filter.decorateAll cache (ids.map (liveFrame image))).mapIdx frameLine).map (·.run.value) =
      (ids.mapIdx fun i id => printedLine i id.programCounter (printedName image cache id)).map .ok := by
    simp [FrameFilter.decorateAll, List.mapIdx_eq_zipIdx_map, List.zipIdx_map, value_frameLine]
  simpa [printed] using value_printed_append hlines []

end Display

namespace Placement

variable (p : Placement)

theorem start_ne_zero {b : Block} (hb : b ∈ p.blocks) : b.start ≠ 0 := by
  intro h
  have hpos := (p.proper b hb).1
  rw [h] at hpos
  exact absurd hpos (by decide)

theorem word_image {w : Addr × UInt64} (h : w ∈ p.blocks.flatMap Block.words) :
    p.image.target.memory.word w.1 unwinder.convention.pointerWidth = .ok w.2 :=
  ProcessImage.word_allot p.proper p.disjoint h

theorem find_root : p.image.target.symbols.find config.layout.rootSymbol = some p.rootVariable := by
  have hglobals : p.image.globals = p.rootSymbol :: p.otherSymbols := by
    rw [Places.image, ProcessImage.globals_allot, ProcessImage.globals_foldl_declare]
    rfl
  have hroot : p.rootVariable ≠ 0 := p.start_ne_zero (b := p.rootBlock) (by simp [Places.blocks])
  show p.image.findGlobal "DEMO_JIT_CONTEXT" = _
  rw [ProcessImage.findGlobal, hglobals, List.find?_cons_of_pos (by simp [Places.rootSymbol])]
  exact Addr.nonNull?_of_ne_zero hroot

theorem words_eq : config.layout.words p.rootVariable p.context p.functions =
    [p.rootBlock, p.contextBlock, p.innerBlock, p.outerBlock].flatMap Block.words := by
  -- The layout writes the other places as they are in the blocks.
  have hroot : p.rootVariable = p.rootVariable + .ofNat 0 := (UInt64.add_zero _).symm
  exact congrArg (fun addr => (addr, p.context) :: _) hroot

theorem holdsList : p.image.target.HoldsList config.layout 8 p.rootVariable p.context p.functions := by
  refine ⟨p.find_root, fun w hw => ?_⟩
  have hsublist : [p.rootBlock, p.contextBlock, p.innerBlock, p.outerBlock].Sublist p.blocks := by
    simp [Places.blocks]
  rw [words_eq] at hw
  obtain ⟨b, hb, hw⟩ := List.mem_flatMap.1 hw
  have hmem : w ∈ p.blocks.flatMap Block.words := List.mem_flatMap.2 ⟨b, hsublist.subset hb, hw⟩
  rw [Memory.Holds, lowBytes_of_lt (UInt64.toNat_lt_size w.2)]
  exact p.word_image hmem

theorem toNat_code {n : Nat} (h : n ≤ 0x200) : (p.code + UInt64.ofNat n).toNat = p.code.toNat + n := by
  have hend : p.code.toNat + 0x200 < UInt64.size := (p.proper p.codeBlock (by simp [Places.blocks])).2
  exact toNat_add_ofNat (by omega)

theorem contains_code {m n k : Nat} (hm : m ≤ 0x200) (hn : n ≤ 0x200) (hk : k ≤ 0x200) :
    CodeRange.contains ⟨p.code + .ofNat m, p.code + .ofNat n⟩ (p.code + .ofNat k) = decide (m ≤ k ∧ k < n) := by
  simp only [CodeRange.contains, UInt64.le_iff_toNat_le, UInt64.lt_iff_toNat_lt, p.toNat_code hm, p.toNat_code hn,
    p.toNat_code hk, Nat.add_le_add_iff_left, Nat.add_lt_add_iff_left]

theorem value_scan (pc : Addr) : ((unwinder.registry p.image.target).chain.scan pc).run.value =
    .ok ((p.functions.map (·.range)).find? (·.contains pc)) := by
  have hcontext : p.context ≠ 0 := p.start_ne_zero (b := p.contextBlock) (by simp [Places.blocks])
  have hinner : p.innerNode ≠ 0 := p.start_ne_zero (b := p.innerBlock) (by simp [Places.blocks])
  have houter : p.outerNode ≠ 0 := p.start_ne_zero (b := p.outerBlock) (by simp [Places.blocks])
  have hnodes : ∀ f ∈ p.functions, f.node ≠ 0 := by
    simp [Places.functions, Places.inner, Places.outer, hinner, houter]
  exact (p.holdsList.lists hcontext hnodes (.inl rfl)).value_scan pc

theorem firstMatch_inner :
    (unwinder.registry p.image.target).chain.FirstMatch p.innerFrame.programCounter p.inner.range := by
  have hinner : CodeRange.contains ⟨p.code, p.code + 0x100⟩ (p.code + 0x10) = true := by
    simpa using p.contains_code (m := 0) (n := 0x100) (k := 0x10) (by decide) (by decide) (by decide)
  rw [← FunctionChain.value_scan_eq_match_iff, value_scan]
  simp [Places.functions, Places.inner, Places.innerFrame, ListedFunction.range, hinner]

theorem firstMatch_outer :
    (unwinder.registry p.image.target).chain.FirstMatch p.outerFrame.programCounter p.outer.range := by
  have hinner : CodeRange.contains ⟨p.code, p.code + 0x100⟩ (p.code + 0x140) = false := by
    simpa using p.contains_code (m := 0) (n := 0x100) (k := 0x140) (by decide) (by decide) (by decide)
  have houter : CodeRange.contains ⟨p.code + 0x100, p.code + 0x200⟩ (p.code + 0x140) = true := by
    simpa using p.contains_code (m := 0x100) (n := 0x200) (k := 0x140) (by decide) (by decide) (by decide)
  rw [← FunctionChain.value_scan_eq_match_iff, value_scan]
  simp [Places.functions, Places.inner, Places.outer, Places.outerFrame, ListedFunction.range, hinner, houter]

/-- A word of the stack, at the place where a frame has it saved. -/
theorem word_stack {addr : Addr} {d : Nat} (haddr : addr = p.stack + .ofNat d) {word : UInt64}
    (h : (d, word) ∈ p.stackBlock.contents) :
    p.image.target.memory.word addr unwinder.convention.pointerWidth = .ok word := by
  have hword : (p.stack + .ofNat d, word) ∈ p.stackBlock.words := Block.mem_words_iff.2 ⟨(d, word), h, rfl⟩
  have hmem : (addr, word) ∈ p.blocks.flatMap Block.words := by
    rw [haddr, List.mem_flatMap]
    exact ⟨p.stackBlock, by simp [Places.blocks], hword⟩
  exact p.word_image (w := (addr, word)) hmem

theorem unwindAt_inner (s : Session) : ((unwinder.unwindAt p.image.target p.innerFrame).on s).value =
    (.ok (some (unwinder.callerState p.outerFrame.programCounter p.outerFrame.stackPointer)),
      s.record (some (p.innerFrame.stackPointer, p.inner.range))) := by
  refine Unwinder.value_unwindAt_of_match (by decide) rfl p.firstMatch_inner ?_ ?_ s
  · exact p.word_stack (d := 0) rfl (by simp [Places.stackBlock, Places.outerFrame])
  · exact p.word_stack (d := 8) rfl (by simp [Places.stackBlock, Places.outerFrame])

theorem unwindAt_outer (s : Session) : ((unwinder.unwindAt p.image.target p.outerFrame).on s).value =
    (.ok (some (unwinder.callerState p.callerFrame.programCounter p.callerFrame.stackPointer)),
      s.record (some (p.outerFrame.stackPointer, p.outer.range))) := by
  have hfp : Addr.offset (p.stack + 64) 0 = p.stack + .ofNat 64 := UInt64.add_assoc p.stack 64 0
  have hpc : Addr.offset (p.stack + 64) 8 = p.stack + .ofNat 72 := UInt64.add_assoc p.stack 64 8
  refine Unwinder.value_unwindAt_of_match (by decide) rfl p.firstMatch_outer ?_ ?_ s
  · exact p.word_stack hfp (by simp [Places.stackBlock, Places.callerFrame])
  · exact p.word_stack hpc (by simp [Places.stackBlock, Places.callerFrame])

theorem toNat_outerFrame : p.outerFrame.stackPointer.toNat = p.stack.toNat + 64 := by
  have hend : p.stack.toNat + 0x100 < UInt64.size := (p.proper p.stackBlock (by simp [Places.blocks])).2
  show (p.stack + UInt64.ofNat 64).toNat = _
  exact toNat_add_ofNat (by omega)

theorem outerFrame_ne_null : p.outerFrame.stackPointer ≠ 0 := by
  intro h
  have hnat := congrArg UInt64.toNat h
  rw [toNat_outerFrame] at hnat
  exact absurd hnat (by simp)

theorem innerFrame_ne_null : p.innerFrame.stackPointer ≠ 0 :=
  p.start_ne_zero (b := p.stackBlock) (by simp [Places.blocks])

theorem innerFrame_ne_outerFrame : p.innerFrame.stackPointer ≠ p.outerFrame.stackPointer := by
  intro h
  have hnat := congrArg UInt64.toNat h
  rw [toNat_outerFrame] at hnat
  have hinner : p.innerFrame.stackPointer.toNat = p.stack.toNat := rfl
  omega

/-- The callers up to the limit, of which there are two, and what has been learned on the way. -/
theorem walkFrom_inner (n : Nat) : unwinder.walkFrom p.image.target n p.innerFrame {} =
    (.ok ([p.outerFrame, p.callerFrame].take n), p.sessionAfter n) := by
  have hfirst : ∀ n, unwinder.walkFrom p.image.target (n + 1) p.innerFrame {} =
      (unwinder.walkFrom p.image.target n p.outerFrame (p.sessionAfter 1)).behind [p.outerFrame] := by
    intro n
    rw [Unwinder.walkFrom_succ, unwindAt_inner]
    exact if_neg p.outerFrame_ne_null
  have hsecond : ∀ n, unwinder.walkFrom p.image.target (n + 1) p.outerFrame (p.sessionAfter 1) =
      (.ok [p.callerFrame], p.sessionAfter 2) := by
    intro n
    rw [Unwinder.walkFrom_succ, unwindAt_outer]
    exact if_pos rfl
  match n with
  | 0 => exact Unwinder.walkFrom_zero p.innerFrame {}
  | 1 =>
    rw [hfirst, Unwinder.walkFrom_zero]
    rfl
  | n + 2 =>
    rw [hfirst, hsecond]
    simp [Places.sessionAfter]

theorem lookup_inner (n : Nat) : (p.sessionAfter n).cache.lookup p.innerFrame.stackPointer =
    if 0 < n then some p.inner.range else none := by
  match n with
  | 0 => rfl
  | 1 => simp [Places.sessionAfter, Session.lookup_record_some]
  | n + 2 => simp [Places.sessionAfter, Session.lookup_record_some, p.innerFrame_ne_outerFrame.symm]

theorem lookup_outer (n : Nat) : (p.sessionAfter n).cache.lookup p.outerFrame.stackPointer =
    if 1 < n then some p.outer.range else none := by
  match n with
  | 0 => rfl
  | 1 =>
    rw [Places.sessionAfter, Session.lookup_record_some, if_neg p.innerFrame_ne_outerFrame]
    rfl
  | n + 2 => simp [Places.sessionAfter, Session.lookup_record_some]

theorem lookup_caller (n : Nat) : (p.sessionAfter n).cache.lookup p.callerFrame.stackPointer = none := by
  have hinner : p.innerFrame.stackPointer ≠ p.callerFrame.stackPointer := p.innerFrame_ne_null
  have houter : p.outerFrame.stackPointer ≠ p.callerFrame.stackPointer := p.outerFrame_ne_null
  match n with
  | 0 => rfl
  | 1 =>
    rw [Places.sessionAfter, Session.lookup_record_some, if_neg hinner]
    rfl
  | n + 2 =>
    rw [Places.sessionAfter, Session.lookup_record_some, if_neg houter, Session.lookup_record_some, if_neg hinner]
    rfl

theorem value_report (n : Nat) : (p.report unwinder filter n).value =
    { exitCode := 0
      lines := ((p.frames.take (n + 1)).mapIdx fun i f =>
          printedLine i f.programCounter (printedName p.image (p.sessionAfter n).cache f)) ++
        ["cached frames after resume: 0"] } := by
  let start : FrameIdentity := { stackPointer := p.stack, programCounter := p.code + 0x10 }
  have hwalk : ((unwinder.walk p.image.target start.programCounter start.stackPointer n).on {}).value =
      (.ok ([p.outerFrame, p.callerFrame].take n), p.sessionAfter n) := p.walkFrom_inner n
  have hlines : (printed ((filter.decorateAll (p.sessionAfter n).cache
      ((start :: [p.outerFrame, p.callerFrame].take n).map fun id =>
        LiveFrame.mk p.image id.programCounter id.stackPointer)).mapIdx frameLine)).value =
      ((p.frames.take (n + 1)).mapIdx fun i f =>
        printedLine i f.programCounter (printedName p.image (p.sessionAfter n).cache f), true) :=
    value_printed_frames p.image (p.sessionAfter n).cache (p.frames.take (n + 1))
  have hcached : "cached frames after resume: " ++ toString FrameCache.empty.size =
      "cached frames after resume: 0" := by decide
  rw [report, Traced.value_bind, hwalk]
  dsimp only
  rw [Traced.value_bind, hlines, ← hcached]
  rfl

theorem run_eq (setting : Option String) : p.run setting =
    { exitCode := 0
      lines := ((p.frames.take (limit setting + 1)).mapIdx fun i f =>
          printedLine i f.programCounter (printedName p.image (p.sessionAfter (limit setting)).cache f)) ++
        ["cached frames after resume: 0"] } := by
  have hunwinder : (({} : Installation).install config).value.unwinders.find? config.name = some unwinder := rfl
  have hfilter : (({} : Installation).install config).value.filters.find? config.name = some filter := rfl
  simp only [run, hunwinder, hfilter, value_report]

theorem length_lines (setting : Option String) : (p.run setting).lines.length = min (limit setting) 2 + 2 := by
  have hframes : p.frames.length = 3 := rfl
  simp only [run_eq, List.length_append, List.length_mapIdx, List.length_take, List.length_singleton, hframes]
  omega

theorem getElem?_lines (setting : Option String) {i : Nat} {f : FrameIdentity} (hi : i ≤ limit setting)
    (hf : p.frames[i]? = some f) : (p.run setting).lines[i]? =
      some (printedLine i f.programCounter (printedName p.image (p.sessionAfter (limit setting)).cache f)) := by
  have hlt : i < p.frames.length := (List.getElem?_eq_some_iff.1 hf).1
  have htake : (p.frames.take (limit setting + 1))[i]? = some f := by
    rw [List.getElem?_take_of_lt (Nat.lt_succ_of_le hi), hf]
  rw [run_eq, List.getElem?_append_left (by simp; omega), List.getElem?_mapIdx, htake]
  rfl

theorem getElem?_last (setting : Option String) :
    (p.run setting).lines[min (limit setting) 2 + 1]? = some "cached frames after resume: 0" := by
  have hlength : ((p.frames.take (limit setting + 1)).mapIdx fun i f =>
      printedLine i f.programCounter (printedName p.image (p.sessionAfter (limit setting)).cache f)).length =
      min (limit setting) 2 + 1 := by
    simp [Places.frames]
  rw [run_eq, List.getElem?_append_right (Nat.le_of_eq hlength), hlength, Nat.sub_self]
  rfl

/-- Behind the second frame there is none to unwind. -/
theorem run_eq_run_none {setting : Option String} (h : 2 ≤ limit setting) : p.run setting = p.run none := by
  have hsession : ∀ n ≥ 2, p.sessionAfter n = p.sessionAfter 2 := by
    intro n hn
    obtain ⟨n, rfl⟩ := Nat.exists_eq_add_of_le' hn
    rfl
  have hframes : ∀ n ≥ 2, p.frames.take (n + 1) = p.frames := fun n hn =>
    List.take_of_length_le (Nat.succ_le_succ hn)
  have hnone : limit none ≥ 2 := by decide
  rw [run_eq, run_eq, hsession _ h, hframes _ h, hsession _ hnone, hframes _ hnone]

theorem label_ne_unknown (r : CodeRange) : r.label ≠ "??" := by
  intro h
  have hchars := congrArg String.toList h
  rw [CodeRange.toList_label] at hchars
  exact absurd (List.cons.inj hchars).1 (by decide)

/-- A frame is named by its function where it has been unwound. -/
theorem printedName_frame {i : Nat} {f : FrameIdentity} (hf : p.frames[i]? = some f)
    (hname : p.image.symbolAt f.programCounter = none) (n : Nat) :
    printedName p.image (p.sessionAfter n).cache f =
      match p.functions[i]? with
      | some function => if i < n then function.range.label else "??"
      | none => "??" := by
  match i with
  | 0 =>
    obtain rfl : p.innerFrame = f := Option.some.inj hf
    rw [printedName, lookup_inner, hname]
    by_cases hn : 0 < n <;> simp [hn, Places.functions]
  | 1 =>
    obtain rfl : p.outerFrame = f := Option.some.inj hf
    rw [printedName, lookup_outer, hname]
    by_cases hn : 1 < n <;> simp [hn, Places.functions]
  | 2 =>
    obtain rfl : p.callerFrame = f := Option.some.inj hf
    rw [printedName, lookup_caller, hname]
    rfl
  | i + 3 => simp [Places.frames] at hf

/-- What is printed, where no dynamic symbol covers the code: as many frames as the limit allows, each that was
unwound under its function and no other, and then an empty cache. -/
theorem run_shows_frames (hnames : ∀ pc ∈ [p.code + 0x10, p.code + 0x140, p.caller], p.image.symbolAt pc = none)
    (setting : Option String) :
    ∃ limit, (∀ n, Asks setting n ↔ n = limit) ∧
      let unwound := min limit 2
      let report := p.run setting
      report.exitCode = 0 ∧
      report.lines.length = unwound + 2 ∧
      (∀ i pc, i ≤ unwound → [p.code + 0x10, p.code + 0x140, p.caller][i]? = some pc → ∃ name,
        report.lines[i]? = some ("#" ++ toString i ++ " " ++ pc.padded ++ " in " ++ name) ∧
        (∀ range, [⟨p.code, p.code + 0x100⟩, ⟨p.code + 0x100, p.code + 0x200⟩][i]? = some range →
          (name = CodeRange.label range ↔ i < unwound)) ∧
        (unwound ≤ i → name = "??")) ∧
      report.lines[unwound + 1]? = some "cached frames after resume: 0" ∧
      (2 ≤ limit → report = p.run none) := by
  refine ⟨limit setting, fun n => asks_iff, congrArg Report.exitCode (p.run_eq setting), p.length_lines setting, ?_,
    p.getElem?_last setting, p.run_eq_run_none⟩
  intro i pc hi hpc
  have hcounters : p.frames.map (·.programCounter) = [p.code + 0x10, p.code + 0x140, p.caller] := rfl
  have hranges : p.functions.map (·.range) = [⟨p.code, p.code + 0x100⟩, ⟨p.code + 0x100, p.code + 0x200⟩] := rfl
  rw [← hcounters] at hnames hpc
  rw [← hranges]
  have hname := hnames pc (List.mem_of_getElem? hpc)
  rw [List.getElem?_map] at hpc
  obtain ⟨f, hf, rfl⟩ := Option.map_eq_some_iff.1 hpc
  refine ⟨_, p.getElem?_lines setting (by omega) hf, ?_⟩
  rw [p.printedName_frame hf hname, List.getElem?_map]
  cases hfunction : p.functions[i]? with
  | none => exact ⟨fun range hrange => by simp at hrange, fun _ => rfl⟩
  | some function =>
    have htwo : i < 2 := (List.getElem?_eq_some_iff.1 hfunction).1
    constructor
    · rintro range ⟨⟩
      dsimp only
      by_cases hlt : i < limit setting
      · exact iff_of_true (if_pos hlt) (by omega)
      · rw [if_neg hlt]
        exact iff_of_false (label_ne_unknown _).symm (by omega)
    · intro hle
      exact if_neg (by omega)

/-- With a limit of one the outer frame is shown, but not unwound. -/
theorem run_shows_frames_up_to_one :
    let report := placement.run (some "+0001")
    report.exitCode = 0 ∧ report.lines.length = 3 ∧
      report.lines[0]? = some "#0 0x00007f41a2c06010 in JIT[0x7f41a2c06000, 0x7f41a2c06100]" ∧
      report.lines[1]? = some "#1 0x00007f41a2c06140 in ??" ∧
      report.lines[2]? = some "cached frames after resume: 0" := by
  have hnames : ∀ pc ∈ [placement.code + 0x10, placement.code + 0x140, placement.caller],
      placement.image.symbolAt pc = none := by
    rw [List.forall_mem_cons, List.forall_mem_cons, List.forall_mem_singleton]
    exact ⟨by decide, by decide, by decide⟩
  obtain ⟨limit, hasks, hexit, hlength, hlines, hlast, -⟩ := placement.run_shows_frames hnames (some "+0001")
  obtain rfl : 1 = limit := (hasks 1).1 <| .inl
    ⟨_, rfl, ['+'], ['0', '0', '0', '1'], by decide, .inr rfl, by decide, by simp, by decide, by decide⟩
  obtain ⟨_, hfirst, hlabel, -⟩ := hlines 0 _ (by decide) rfl
  obtain rfl := (hlabel _ rfl).2 (by decide)
  obtain ⟨_, hsecond, -, hunknown⟩ := hlines 1 _ (by decide) rfl
  obtain rfl := hunknown (by decide)
  exact ⟨hexit, hlength, hfirst.trans (by decide), hsecond.trans (by decide), hlast⟩

end Placement
end Demo
end JitFrames
