import JitFrames.Proofs.AccessPlan
import JitFrames.Proofs.UnwindStep

/-! The accesses of an unwind step, in order: the registers, the way to the first node, the words of each
visited node, and the words that the frame has saved. A step asks along this plan and fails where an access but
the root fails. -/
namespace JitFrames

namespace Registry

/-- The context: what the word at the root symbol points at, if it can be read and is not null. -/
def context? (r : Registry) : Option Addr :=
  (r.target.symbols.find r.layout.rootSymbol).bind fun symbol =>
    match r.target.memory.word symbol r.pointerWidth with
    | .ok context => Addr.nonNull? context
    | .error _ => none

def rootAccesses (r : Registry) : List Access :=
  .symbol r.layout.rootSymbol ::
    (r.target.symbols.find r.layout.rootSymbol).toList.map fun symbol => .word symbol r.pointerWidth

def headAccesses (r : Registry) : List Access :=
  r.rootAccesses ++
    r.context?.toList.map fun context => .word (context.offset r.layout.functionsOffset) r.pointerWidth

def nodeAccesses (r : Registry) (addr : Addr) : List Access :=
  [.word (addr.offset r.layout.entryPointOffset) r.pointerWidth,
    .word (addr.offset r.layout.codeEndOffset) r.pointerWidth,
    .word (addr.offset r.layout.nextOffset) r.pointerWidth]

def ReadsRoot (r : Registry) (a : Access) : Prop :=
  ∃ symbol, r.target.symbols.find r.layout.rootSymbol = some symbol ∧ a = .word symbol r.pointerWidth

/-- The access is refused with this error, and it is not the one that may be. -/
def Fails (r : Registry) (registers : Registers) (a : Access) (e : AccessError) : Prop :=
  ¬ r.ReadsRoot a ∧
    match a with
    | .register name => registers name = .error e
    | .word addr width => r.target.memory.word addr width = .error e
    | _ => False

variable {r : Registry} {registers : Registers}

theorem Fails.unique {a : Access} {e e' : AccessError} (h : r.Fails registers a e)
    (h' : r.Fails registers a e') : e = e' := by
  obtain ⟨-, h⟩ := h
  obtain ⟨-, h'⟩ := h'
  cases a with
  | register name =>
    have he : (.error e : Except AccessError UInt64) = .error e' := h.symm.trans h'
    exact Except.error.inj he
  | word addr width =>
    have he : (.error e : Except AccessError UInt64) = .error e' := h.symm.trans h'
    exact Except.error.inj he
  | _ => exact h.elim

theorem asksAlong_register (name : String) :
    (registers.read name).AsksAlong (r.Fails registers) [.register name] := by
  refine Query.asksAlong_ask fun e => ?_
  simp [Fails, ReadsRoot]

/-- The word at the root symbol, if there is one, can be read. -/
def RootReadable (r : Registry) : Prop :=
  ∀ symbol, r.target.symbols.find r.layout.rootSymbol = some symbol →
    ∃ w, r.target.memory.word symbol r.pointerWidth = .ok w

theorem asksAlong_word (hroot : r.RootReadable) (addr : Addr) :
    (r.target.memory.read addr r.pointerWidth).AsksAlong (r.Fails registers)
      [.word addr r.pointerWidth] := by
  refine Query.asksAlong_ask fun e => ⟨fun he => ⟨?_, he⟩, fun h => h.2⟩
  rintro ⟨symbol, hs, ha⟩
  obtain ⟨w, hw⟩ := hroot symbol hs
  cases ha
  rw [he] at hw
  cases hw

theorem asksAlong_node (hroot : r.RootReadable) (addr : Addr) :
    (r.node addr).AsksAlong (r.Fails registers) (r.nodeAccesses addr) := by
  refine (asksAlong_word hroot _).bind fun entryPoint _ => ?_
  refine (asksAlong_word hroot _).bind fun codeEnd _ => ?_
  exact (asksAlong_word hroot _).bind fun next _ => Query.asksAlong_pure _

theorem value_context_eq : r.context.run.value = .ok r.context? := by
  rw [value_context, context?]
  cases r.target.symbols.find r.layout.rootSymbol with
  | none => rfl
  | some symbol =>
    dsimp only [Option.bind_some]
    cases r.target.memory.word symbol r.pointerWidth <;> rfl

theorem rootReadable_of_context {context : Addr} (h : r.context? = some context) : r.RootReadable := by
  intro symbol hs
  rw [context?, hs, Option.bind_some] at h
  cases hw : r.target.memory.word symbol r.pointerWidth with
  | error e => simp [hw] at h
  | ok w => exact ⟨w, rfl⟩

theorem no_context_of_no_symbol (hs : r.target.symbols.find r.layout.rootSymbol = none) :
    r.context? = none ∧ r.headAccesses = [.symbol r.layout.rootSymbol] := by
  have hc : r.context? = none := by rw [context?, hs, Option.bind_none]
  simp [hc, headAccesses, rootAccesses, hs]

theorem no_context_of_word {symbol : Addr} (hs : r.target.symbols.find r.layout.rootSymbol = some symbol)
    (hw : (∃ e, r.target.memory.word symbol r.pointerWidth = .error e) ∨
      r.target.memory.word symbol r.pointerWidth = .ok 0) :
    r.context? = none ∧ r.headAccesses = [.symbol r.layout.rootSymbol, .word symbol r.pointerWidth] := by
  have hc : r.context? = none := by
    rw [context?, hs, Option.bind_some]
    rcases hw with ⟨e, he⟩ | hz
    · rw [he]
    · rw [hz]
      rfl
  simp [hc, headAccesses, rootAccesses, hs]

theorem context_of_word {symbol context : Addr}
    (hs : r.target.symbols.find r.layout.rootSymbol = some symbol)
    (hw : r.target.memory.word symbol r.pointerWidth = .ok context) (hz : context ≠ 0) :
    r.context? = some context ∧ r.headAccesses = [.symbol r.layout.rootSymbol, .word symbol r.pointerWidth,
      .word (context.offset r.layout.functionsOffset) r.pointerWidth] := by
  have hc : r.context? = some context := by
    rw [context?, hs, Option.bind_some, hw]
    exact Addr.nonNull?_of_ne_zero hz
  simp [hc, headAccesses, rootAccesses, hs]

theorem asksAlong_context : r.context.AsksAlong (r.Fails registers) r.rootAccesses := by
  unfold rootAccesses
  have hsymbol : (r.target.symbols.lookup r.layout.rootSymbol).AsksAlong (r.Fails registers)
      [.symbol r.layout.rootSymbol] := Query.asksAlong_ask fun e => by simp [Fails]
  refine hsymbol.bind fun symbol? hv => ?_
  obtain rfl : r.target.symbols.find r.layout.rootSymbol = symbol? := Except.ok.inj hv
  cases hs : r.target.symbols.find r.layout.rootSymbol with
  | none => exact Query.asksAlong_log _ (Query.asksAlong_pure _)
  | some symbol =>
    have hroot : ∀ e, ¬ r.Fails registers (.word symbol r.pointerWidth) e := fun e h => h.1 ⟨symbol, hs, rfl⟩
    refine (Query.asksAlong_attempt _ hroot).bind fun answer _ => ?_
    cases answer with
    | error e => exact Query.asksAlong_log _ (Query.asksAlong_pure _)
    | ok context =>
      show Query.AsksAlong _ _ (if Addr.isNull context then _ else _ : Query (Option Addr))
      split
      · exact Query.asksAlong_log _ (Query.asksAlong_pure _)
      · exact Query.asksAlong_pure _

theorem asksAlong_head : r.head.AsksAlong (r.Fails registers) r.headAccesses := by
  refine asksAlong_context.bind fun context? hv => ?_
  obtain rfl : r.context? = context? := by
    rw [value_context_eq] at hv
    exact Except.ok.inj hv
  cases hc : r.context? with
  | none => exact Query.asksAlong_pure _
  | some context =>
    exact (asksAlong_word (rootReadable_of_context hc) _).bind fun head _ => Query.asksAlong_pure _

theorem value_head_of_no_context (h : r.context? = none) : r.head.run.value = .ok none := by
  rw [value_head, value_context_eq, h]
  rfl

theorem value_head_of_context {context : Addr} (h : r.context? = some context) : r.head.run.value =
    (r.target.memory.word (context.offset r.layout.functionsOffset) r.pointerWidth).map Addr.nonNull? := by
  rw [value_head, value_context_eq, h]
  show (r.target.memory.word (context.offset r.layout.functionsOffset) r.pointerWidth >>= fun head =>
    pure (Addr.nonNull? head)) = _
  cases r.target.memory.word (context.offset r.layout.functionsOffset) r.pointerWidth <;> rfl

theorem rootReadable_of_head {addr : Addr} (h : r.head.run.value = .ok (some addr)) : r.RootReadable := by
  cases hc : r.context? with
  | none =>
    rw [value_head_of_no_context hc] at h
    cases h
  | some context => exact rootReadable_of_context hc

end Registry

/-- A search for `pc` that stands at the place `k` visits these nodes one after another. -/
def FunctionChain.Visits (chain : FunctionChain) (pc : Addr) : Nat → List Addr → Prop
  | _, [] => True
  | k, addr :: nodes => chain.place k = .ok (some addr) ∧ (nodes ≠ [] → chain.PassesAt pc k) ∧
      chain.Visits pc (k + 1) nodes

theorem FunctionChain.Visits.passesAt {chain : FunctionChain} {pc : Addr} {k : Nat} {nodes : List Addr}
    (h : chain.Visits pc k nodes) {j : Nat} (hj : j + 1 < nodes.length) : chain.PassesAt pc (k + j) := by
  induction nodes generalizing k j with
  | nil => simp at hj
  | cons addr nodes ih =>
    cases j with
    | zero => exact h.2.1 (by rintro rfl; simp at hj)
    | succ j =>
      have hp := ih h.2.2 (Nat.lt_of_succ_lt_succ hj)
      rwa [Nat.add_right_comm] at hp

/-- Where a search that has visited this many nodes from the place `k` on has an answer: at the last of them
it matches, or behind them the list ends. -/
def FunctionChain.AnsweredBehind (chain : FunctionChain) (pc : Addr) (k visited : Nat) :
    Except Halt (Option CodeRange) → Prop
  | .ok (some range) => ∃ last, visited = last + 1 ∧ chain.MatchesAt pc (k + last) range
  | .ok none => chain.place (k + visited) = .ok none
  | .error _ => True

theorem FunctionChain.AnsweredBehind.cons {chain : FunctionChain} {pc : Addr} {k visited : Nat}
    {answer : Except Halt (Option CodeRange)} (h : chain.AnsweredBehind pc (k + 1) visited answer) :
    chain.AnsweredBehind pc k (visited + 1) answer := by
  rcases answer with _ | _ | range
  · trivial
  · have hend : chain.place (k + 1 + visited) = .ok none := h
    rw [Nat.add_right_comm] at hend
    exact hend
  · obtain ⟨last, hv, hm⟩ := h
    refine ⟨last + 1, by omega, ?_⟩
    rw [Nat.add_right_comm] at hm
    exact hm

namespace Registry

variable {r : Registry} {registers : Registers} {pc : Addr}

theorem asksAlong_visit (hroot : r.RootReadable) {room : Nat} {seen : List Addr} {addr : Addr}
    (h : addr ∉ seen) {plan : List Access}
    (hmatch : ∀ node, (r.node addr).run.value = .ok node → node.range.contains pc = true → plan = [])
    (hlater : ∀ node, (r.node addr).run.value = .ok node → ¬ node.range.contains pc →
      (r.chain.scanFrom pc room (addr :: seen) node.next).AsksAlong (r.Fails registers) plan) :
    (r.chain.scanFrom pc (room + 1) seen (some addr)).AsksAlong (r.Fails registers)
      (r.nodeAccesses addr ++ plan) := by
  simp only [FunctionChain.scanFrom, h, if_false]
  refine (asksAlong_node hroot addr).bind_search fun node hn => Search.asksAlong_log _ ?_
  by_cases hr : node.range.contains pc
  · rw [if_pos hr, hmatch node hn hr]
    exact Search.asksAlong_pure _
  · rw [if_neg hr]
    exact hlater node hn hr

/-- The nodes that a search visits come out of the recursion together with what is asked for them. -/
theorem asksAlong_scanFrom (hroot : r.RootReadable) {room k : Nat} {seen : List Addr} {start : Option Addr}
    (hstart : r.chain.place k = .ok start) : ∃ nodes, r.chain.Visits pc k nodes ∧
      (r.chain.scanFrom pc room seen start).AsksAlong (r.Fails registers) (nodes.flatMap r.nodeAccesses) ∧
      r.chain.AnsweredBehind pc k nodes.length (r.chain.scanFrom pc room seen start).run.value := by
  -- The nodes come out of the recursion together with what is asked for them.
  induction room generalizing k seen start with
  | zero =>
    cases start with
    | none => exact ⟨[], trivial, .done, hstart⟩
    | some addr => exact ⟨[], trivial, .endless _, trivial⟩
  | succ room ih =>
    cases start with
    | none => exact ⟨[], trivial, .done, hstart⟩
    | some addr =>
      by_cases hm : addr ∈ seen
      · rw [FunctionChain.scanFrom_of_mem _ _ _ hm]
        exact ⟨[], trivial, .endless _, trivial⟩
      · have hlast : r.chain.Visits pc k [addr] := ⟨hstart, fun h => absurd rfl h, trivial⟩
        rw [FunctionChain.value_scanFrom_of_notMem _ _ _ hm]
        cases hn : (r.chain.node addr).run.value with
        | error e =>
          have hnone : ∀ node, (r.node addr).run.value ≠ .ok node := fun node h => by cases hn.symm.trans h
          exact ⟨[addr], hlast, asksAlong_visit hroot hm (fun _ _ _ => rfl)
            fun node h => absurd h (hnone node), trivial⟩
        | ok node =>
          have hnode : ∀ {other}, (r.node addr).run.value = .ok other → node = other :=
            fun h => Except.ok.inj (hn.symm.trans h)
          by_cases hr : node.range.contains pc
          · refine ⟨[addr], hlast, asksAlong_visit hroot hm (fun _ _ _ => rfl) fun other h ho => ?_, ?_⟩
            · exact absurd (hnode h ▸ hr) ho
            · simp only [hr, if_true]
              exact ⟨0, rfl, addr, node, hstart, hn, CodeRange.contains_iff.1 hr, rfl⟩
          · obtain ⟨nodes, hvisits, hasks, hends⟩ := @ih (k + 1) (addr :: seen) node.next
              (FunctionChain.place_succ hstart hn)
            have hpasses : r.chain.PassesAt pc k :=
              ⟨addr, node, hstart, hn, fun h => hr (CodeRange.contains_iff.2 h)⟩
            refine ⟨addr :: nodes, ⟨hstart, fun _ => hpasses, hvisits⟩, asksAlong_visit hroot hm
              (fun other h ho => absurd (hnode h ▸ ho) hr) fun other h _ => hnode h ▸ hasks, ?_⟩
            simp only [hr]
            exact hends.cons

theorem asksAlong_scan (r : Registry) (registers : Registers) (pc : Addr) :
    ∃ nodes, r.chain.Visits pc 0 nodes ∧
      (r.chain.scan pc).AsksAlong (r.Fails registers) (r.headAccesses ++ nodes.flatMap r.nodeAccesses) ∧
      r.chain.AnsweredBehind pc 0 nodes.length (r.chain.scan pc).run.value := by
  have hhead : r.chain.head.AsksAlong (r.Fails registers) r.headAccesses := asksAlong_head
  rw [FunctionChain.value_scan]
  cases hv : r.chain.head.run.value with
  | error e =>
    refine ⟨[], trivial, hhead.bind_search fun start h => ?_, trivial⟩
    rw [hv] at h
    cases h
  | ok start =>
    have hstart : r.chain.place 0 = .ok start := hv
    have hscan : ∃ nodes, r.chain.Visits pc 0 nodes ∧
        (r.chain.scanFrom pc UInt64.size [] start).AsksAlong (r.Fails registers)
          (nodes.flatMap r.nodeAccesses) ∧
        r.chain.AnsweredBehind pc 0 nodes.length (r.chain.scanFrom pc UInt64.size [] start).run.value := by
      cases start with
      | none =>
        rw [FunctionChain.scanFrom_none]
        exact ⟨[], trivial, .done, hstart⟩
      | some addr => exact asksAlong_scanFrom (rootReadable_of_head hv) hstart
    obtain ⟨nodes, hvisits, hasks, hends⟩ := hscan
    refine ⟨nodes, hvisits, hhead.bind_search fun other h => ?_, hends⟩
    obtain rfl : start = other := Except.ok.inj (hv.symm.trans h)
    exact hasks

theorem rootReadable_of_scan {range : CodeRange} (h : (r.chain.scan pc).run.value = .ok (some range)) :
    r.RootReadable := by
  rw [FunctionChain.value_scan] at h
  rcases hv : r.chain.head.run.value with e | _ | addr
  · rw [hv] at h
    cases h
  · rw [hv] at h
    dsimp only at h
    rw [FunctionChain.scanFrom_none] at h
    cases h
  · exact rootReadable_of_head hv

end Registry

theorem Session.accesses_classify (s : Session) (key : Addr) (range : CodeRange) :
    (s.classify key range).accesses = [] := by
  rw [classify, Traced.accesses_map, FrameCache.remember]
  split
  · split <;> rfl
  · rfl

theorem FunctionChain.asksAlong_resolve {fails : Access → AccessError → Prop} {chain : FunctionChain} {pc : Addr}
    {plan : List Access} (h : (chain.scan pc).AsksAlong fails plan) (key : Addr) (s : Session) :
    (chain.resolve pc key).AsksAlong fails plan s := by
  refine Step.asksAlong_log _ ?_
  rw [← List.append_nil plan]
  refine h.bind_step fun found => ?_
  cases found with
  | none => exact Step.asksAlong_pure none
  | some range =>
    refine Step.asksAlong_log _ ?_
    have hupdate := @Step.asksAlong_update fails s (·.classify key range) (s.accesses_classify key range)
    exact hupdate.bind fun _ _ _ => Step.asksAlong_pure _

namespace Unwinder

def frameAccesses (u : Unwinder) : List Access :=
  [.register u.convention.pcRegister, .register u.convention.fpRegister]

def savedAccesses (u : Unwinder) (fp : Addr) : List Access :=
  [.word (fp.offset u.convention.savedFpOffset) u.convention.pointerWidth,
    .word (fp.offset u.convention.savedPcOffset) u.convention.pointerWidth]

/-- The accesses of a step in order: the registers, the way to the first node, each node that is visited and,
if the last of them matches, the words that the frame has saved. -/
def plan (u : Unwinder) (target : Target) (fp : Addr) (nodes : List Addr) (matched : Bool) : List Access :=
  u.frameAccesses ++ ((u.registry target).headAccesses ++ nodes.flatMap (u.registry target).nodeAccesses ++
    if matched then u.savedAccesses fp else [])

variable {u : Unwinder} {target : Target} {registers : Registers}

/-- The frame that a step asks for: whatever stands in the registers that can be read. -/
def AsksFor (u : Unwinder) (registers : Registers) (pc fp : Addr) : Prop :=
  (∀ w, registers u.convention.pcRegister = .ok w → pc = w) ∧
    ∀ w, registers u.convention.fpRegister = .ok w → fp = w

theorem exists_asksFor (u : Unwinder) (registers : Registers) : ∃ pc fp, u.AsksFor registers pc fp := by
  have hany : ∀ name, ∃ value : Addr, ∀ w, registers name = .ok w → value = w := by
    intro name
    cases registers name with
    | error e => exact ⟨0, fun w h => by cases h⟩
    | ok value => exact ⟨value, fun w h => Except.ok.inj h⟩
  obtain ⟨pc, hpc⟩ := hany u.convention.pcRegister
  obtain ⟨fp, hfp⟩ := hany u.convention.fpRegister
  exact ⟨pc, fp, hpc, hfp⟩

theorem asksAlong_unwind (hen : u.enabled = true) {pc fp : Addr} {nodes : List Addr} {matched : Bool}
    (hframe : u.AsksFor registers pc fp)
    (hscan : ((u.registry target).chain.scan pc).AsksAlong ((u.registry target).Fails registers)
      ((u.registry target).headAccesses ++ nodes.flatMap (u.registry target).nodeAccesses))
    (hmatched : matched = true ↔ ∃ range, ((u.registry target).chain.scan pc).run.value = .ok (some range))
    (s : Session) : (u.unwind target registers).AsksAlong ((u.registry target).Fails registers)
      (u.plan target fp nodes matched) s := by
  let r := u.registry target
  have hregister : ∀ name, (registers.read name).AsksAlong (r.Fails registers) [.register name] :=
    fun name => Registry.asksAlong_register name
  refine Step.asksAlong_log _ ?_
  simp only [hen, Bool.not_true, Bool.false_eq_true, if_false]
  refine (hregister _).bind_step fun pc' h => ?_
  obtain rfl := hframe.1 pc' h
  refine (hregister _).bind_step fun fp' h => ?_
  obtain rfl := hframe.2 fp' h
  refine Step.asksAlong_log _ ?_
  refine (FunctionChain.asksAlong_resolve hscan _ s).bind fun found t hfound => ?_
  rw [FunctionChain.value_resolve_eq] at hfound
  have hvalue : (r.chain.scan pc).run.value = .ok found := congrArg Prod.fst hfound
  cases found with
  | none =>
    have hno : matched = false := by
      rw [← Bool.not_eq_true, hmatched]
      rintro ⟨range, h⟩
      cases hvalue.symm.trans h
    rw [hno]
    exact Step.asksAlong_log _ (Step.asksAlong_pure _)
  | some range =>
    have hyes : matched = true := hmatched.2 ⟨range, hvalue⟩
    -- The search has matched, so the root has been read and cannot fail here either.
    have hword : ∀ addr, (target.memory.read addr u.convention.pointerWidth).AsksAlong (r.Fails registers)
        [.word addr u.convention.pointerWidth] :=
      fun addr => Registry.asksAlong_word (Registry.rootReadable_of_scan hvalue) addr
    rw [hyes]
    refine (hword _).bind_step fun callerFp _ => ?_
    refine (hword _).bind_step fun callerPc _ => ?_
    exact Step.asksAlong_log _ (Step.asksAlong_pure _)

theorem fst_unwind (u : Unwinder) (target : Target) (registers : Registers) (s : Session) :
    ((u.unwind target registers).on s).value.1 =
      u.answer (u.registry target).chain target.memory registers := by
  rw [unwind, value_unwindWith]

theorem declines_without_list (hen : u.enabled = true) {pc fp : Addr} (hframe : u.frameOf registers = .ok (pc, fp))
    (hhead : (u.registry target).head.run.value = .ok none) (s : Session) :
    ((u.unwind target registers).on s).accesses = u.frameAccesses ++ (u.registry target).headAccesses ∧
      ((u.unwind target registers).on s).value.1 = .ok none := by
  obtain ⟨hpc, hfp⟩ := frameOf_eq_ok_iff.1 hframe
  obtain ⟨nodes, hvisits, hscan, -⟩ := (u.registry target).asksAlong_scan registers pc
  have hend : ((u.registry target).chain.scan pc).run.value = .ok none :=
    FunctionChain.value_scan_eq_end_iff.2 ⟨0, fun j hj => absurd hj (Nat.not_lt_zero j), hhead⟩
  have hnodes : nodes = [] := by
    cases nodes with
    | nil => rfl
    | cons addr nodes => cases hvisits.1.symm.trans hhead
  have hresult : ((u.unwind target registers).on s).value.1 = .ok none := by
    rw [fst_unwind]
    exact answer_eq_none_iff.2 (.inr ⟨pc, fp, hframe, hend⟩)
  have hasks := @asksAlong_unwind u target registers hen pc fp nodes false
    ⟨fun w hw => Except.ok.inj (hpc.symm.trans hw), fun w hw => Except.ok.inj (hfp.symm.trans hw)⟩ hscan
    (by simp [hend]) s
  unfold Step.AsksAlong at hasks
  rw [hresult] at hasks
  refine ⟨?_, hresult⟩
  rw [hasks.eq_of_done, hnodes]
  simp [plan]

theorem exists_plan (hen : u.enabled = true) (s : Session) :
    let r := u.registry target
    let step := (u.unwind target registers).on s
    ∃ pc fp nodes matched, u.AsksFor registers pc fp ∧ r.chain.Visits pc 0 nodes ∧
      (matched = true ↔ ∃ last range, nodes.length = last + 1 ∧ r.chain.MatchesAt pc last range) ∧
      (step.value.1 = .ok none → r.chain.place nodes.length = .ok none) ∧
      Follows (r.Fails registers) (u.plan target fp nodes matched) step.accesses (halt? step.value.1) := by
  intro r step
  obtain ⟨pc, fp, hframe⟩ := u.exists_asksFor registers
  obtain ⟨nodes, hvisits, hscan, hends⟩ := r.asksAlong_scan registers pc
  have hmatched : (r.chain.binding pc fp).isSome = true ↔
      ∃ range, (r.chain.scan pc).run.value = .ok (some range) := by
    simp [Option.isSome_iff_exists, FunctionChain.binding_eq_some_iff, FunctionChain.value_scan_eq_match_iff]
  refine ⟨pc, fp, nodes, _, hframe, hvisits, hmatched.trans ⟨?_, ?_⟩, fun hnone => ?_,
    asksAlong_unwind hen hframe hscan hmatched s⟩
  · rintro ⟨range, hr⟩
    rw [hr] at hends
    obtain ⟨last, hlast, hm⟩ := hends
    rw [Nat.zero_add] at hm
    exact ⟨last, range, hlast, hm⟩
  · rintro ⟨last, range, hlast, hm⟩
    have hpassed : ∀ j < last, r.chain.PassesAt pc j := by
      intro j hj
      have hp := hvisits.passesAt (show j + 1 < nodes.length by omega)
      rwa [Nat.zero_add] at hp
    exact ⟨range, FunctionChain.value_scan_eq_match_iff.2 ⟨last, hpassed, hm⟩⟩
  · have hanswer : u.answer r.chain target.memory registers = .ok none :=
      (fst_unwind u target registers s).symm.trans hnone
    obtain hdis | ⟨pc', fp', hf, hs⟩ := answer_eq_none_iff.1 hanswer
    · rw [hen] at hdis
      cases hdis
    · obtain rfl : pc = pc' := hframe.1 pc' (frameOf_eq_ok_iff.1 hf).1
      rw [hs] at hends
      have hend : r.chain.place (0 + nodes.length) = .ok none := hends
      rwa [Nat.zero_add] at hend

theorem disabled_asks_nothing (hdis : u.enabled = false) (s : Session) :
    ((u.unwind target registers).on s).accesses = [] ∧ ((u.unwind target registers).on s).value.1 = .ok none := by
  have hrun : (u.unwind target registers).on s = (log (.unwinding u.name) >>= fun _ => pure (.ok none, s)) := by
    simp only [unwind, unwindWith, hdis]
    rfl
  rw [hrun]
  exact ⟨rfl, rfl⟩

/-- What a step asks for, in order, and where it fails. An enabled step asks along its plan up to the first
access that is refused, other than the word at the root symbol. -/
theorem unwind_asks_in_order (u : Unwinder) (target : Target) (registers : Registers) (s : Session) :
    let r := u.registry target
    let asked := ((u.unwind target registers).on s).accesses
    let result := ((u.unwind target registers).on s).value.1
    (u.enabled = false → asked = [] ∧ result = .ok none) ∧
    (u.enabled = true → ∃ pc fp nodes matched, u.AsksFor registers pc fp ∧ r.chain.Visits pc 0 nodes ∧
      (matched = true ↔ ∃ last range, nodes.length = last + 1 ∧ r.chain.MatchesAt pc last range) ∧
      asked <+: u.plan target fp nodes matched ∧
      (∀ caller, result = .ok caller → asked = u.plan target fp nodes matched) ∧
      (result = .ok none → r.chain.place nodes.length = .ok none)) ∧
    (∀ e, result = .error (.failed e) ↔ ∃ a ∈ asked, r.Fails registers a e) ∧
    (∀ before a after e, asked = before ++ a :: after → r.Fails registers a e → after = []) ∧
    (u.enabled = true → ∀ pc fp, u.frameOf registers = .ok (pc, fp) →
      (target.symbols.find r.layout.rootSymbol = none →
        asked = u.frameAccesses ++ [.symbol r.layout.rootSymbol] ∧ result = .ok none) ∧
      ∀ symbol, target.symbols.find r.layout.rootSymbol = some symbol →
        ((∃ e, target.memory.word symbol r.pointerWidth = .error e) ∨
            target.memory.word symbol r.pointerWidth = .ok 0 →
          asked = u.frameAccesses ++ [.symbol r.layout.rootSymbol, .word symbol r.pointerWidth] ∧
            result = .ok none) ∧
        ∀ context : Addr, target.memory.word symbol r.pointerWidth = .ok context → context ≠ 0 →
          target.memory.word (context.offset r.layout.functionsOffset) r.pointerWidth = .ok 0 →
          asked = u.frameAccesses ++ [.symbol r.layout.rootSymbol, .word symbol r.pointerWidth,
              .word (context.offset r.layout.functionsOffset) r.pointerWidth] ∧
            result = .ok none) := by
  intro r asked result
  have hfollows : ∃ plan, Follows (r.Fails registers) plan asked (halt? result) := by
    cases hen : u.enabled with
    | false =>
      obtain ⟨hasked, hresult⟩ := @disabled_asks_nothing u target registers hen s
      refine ⟨[], ?_⟩
      rw [show asked = [] from hasked, show result = .ok none from hresult]
      exact .done
    | true =>
      obtain ⟨pc, fp, nodes, matched, -, -, -, -, hf⟩ := @exists_plan u target registers hen s
      exact ⟨_, hf⟩
  obtain ⟨plan, hplan⟩ := hfollows
  refine ⟨fun hdis => disabled_asks_nothing hdis s, fun hen => ?_, fun e => ?_,
    fun before a after e hsplit ha => hplan.eq_nil_of_failed hsplit ha, fun hen pc fp hframe => ⟨fun hs => ?_,
      fun symbol hs => ⟨fun hw => ?_, fun context hw hz hhead => ?_⟩⟩⟩
  · obtain ⟨pc, fp, nodes, matched, hframe, hvisits, hmatched, hend, hf⟩ :=
      @exists_plan u target registers hen s
    refine ⟨pc, fp, nodes, matched, hframe, hvisits, hmatched, hf.isPrefix, fun caller hr => ?_, hend⟩
    have hdone : halt? result = none := by rw [hr, halt?_ok]
    rw [show halt? ((u.unwind target registers).on s).value.1 = none from hdone] at hf
    exact hf.eq_of_done
  · rw [← halt?_eq_some_iff]
    exact hplan.failed_iff fun _ _ _ => Registry.Fails.unique
  · obtain ⟨hc, haccesses⟩ := @Registry.no_context_of_no_symbol r hs
    rw [← haccesses]
    exact declines_without_list hen hframe (Registry.value_head_of_no_context hc) s
  · obtain ⟨hc, haccesses⟩ := @Registry.no_context_of_word r symbol hs hw
    rw [← haccesses]
    exact declines_without_list hen hframe (Registry.value_head_of_no_context hc) s
  · obtain ⟨hc, haccesses⟩ := @Registry.context_of_word r symbol context hs hw hz
    rw [← haccesses]
    refine declines_without_list hen hframe ?_ s
    rw [Registry.value_head_of_context hc]
    exact congrArg (Except.map Addr.nonNull?) hhead

end Unwinder

end JitFrames
