import JitFrames.Proofs.SearchEnds
import JitFrames.Proofs.UnwindStep

/-! The log of an unwind step, put together from those of its parts: the root, the nodes that have been read,
the frame that has been classified, and the answer. What the sources remark belongs to no part. -/
namespace JitFrames

namespace Event

/-- The part of a step or a walk that logs an event; `other` is what neither logs of itself. -/
inductive Part
  | frame | root | nodes | binding | answer | walk | other
  deriving DecidableEq

def part : Event → Part
  | .unwinding _ | .registersRead .. | .resolving .. => .frame
  | .rootMissing _ | .rootUnreadable .. | .contextNull => .root
  | .nodeRead .. => .nodes
  | .classified _ | .rangeReplaced .. => .binding
  | .declined | .unwound .. => .answer
  | .walking .. | .callerFound .. | .walkDone _ => .walk
  | .resumed .. | .stopped _ | .extensionReplaced _ | .installing .. | .remark _ => .other

theorem part_of_mem_singleton {e e' : Event} (h : e ∈ [e']) : e.part = e'.part :=
  congrArg part (List.mem_singleton.1 h)

/-- Logged by an operation of itself, not remarked by a source. -/
def isOwn : Event → Bool
  | .remark _ => false
  | _ => true

/-- The node that has been read, and the range of its function. -/
def nodeRead? : Event → Option (Addr × CodeRange)
  | .nodeRead addr entryPoint codeEnd => some (addr, ⟨entryPoint, codeEnd⟩)
  | _ => none

def isSpan (e : Event) : Bool :=
  match e.heading with
  | .span _ => true
  | _ => false

end Event

namespace Traced

variable {α β : Type}

def own (x : Traced α) : List Event := x.events.filter Event.isOwn

@[simp] theorem own_pure (a : α) : (pure a : Traced α).own = [] := rfl

@[simp] theorem own_bind (x : Traced α) (f : α → Traced β) : (x >>= f).own = x.own ++ (f x.value).own := by
  simp [own]

@[simp] theorem own_map (f : α → β) (x : Traced α) : (f <$> x).own = x.own := by
  simp [own]

theorem own_log {e : Event} (h : e.isOwn = true) : (log e).own = [e] := by
  rw [own, events_log, List.filter_singleton, h]
  rfl

def eventsOf (x : Traced α) (part : Event.Part) : List Event := x.events.filter (·.part = part)

theorem eventsOf_eq (x : Traced α) {part : Event.Part} (h : part ≠ .other) :
    x.eventsOf part = x.own.filter (·.part = part) := by
  rw [eventsOf, own, List.filter_filter]
  refine List.filter_congr fun e _ => ?_
  cases e <;> simp [Event.isOwn, Event.part, h.symm]

theorem filterMap_events (x : Traced α) {f : Event → Option β} {part : Event.Part}
    (hf : ∀ e, e.part ≠ part → f e = none) : x.events.filterMap f = (x.eventsOf part).filterMap f := by
  rw [eventsOf, List.filterMap_filter]
  refine List.filterMap_congr fun e _ => ?_
  by_cases he : e.part = part <;> simp [he, hf]

theorem filter_events (x : Traced α) {p : Event → Bool} {part : Event.Part}
    (hp : ∀ e, p e = true → e.part = part) : x.events.filter p = (x.eventsOf part).filter p := by
  rw [eventsOf, List.filter_filter]
  refine List.filter_congr fun e _ => ?_
  cases he : p e with
  | false => rfl
  | true => simp [hp e he]

theorem own_run_bind {ε : Type} (x : ExceptT ε Traced α) (f : α → ExceptT ε Traced β) :
    (x >>= f).run.own = x.run.own ++
      match x.run.value with
      | .ok a => (f a).run.own
      | .error _ => [] := by
  rw [ExceptT.run_bind, own_bind]
  cases x.run.value <;> rfl

end Traced

@[simp] theorem Query.own_ask {α : Type} (a : Access) (answer : Except AccessError α) (remarks : List Remark) :
    (ask a answer remarks).run.own = [] := by
  simp [Traced.own, Event.isOwn]

theorem Step.own_bind {α β : Type} (x : Step α) (f : α → Step β) (s : Session) :
    ((x >>= f).on s).own = (x.on s).own ++
      match (x.on s).value with
      | (.ok a, t) => ((f a).on t).own
      | (.error _, _) => [] := by
  rw [on_bind, Traced.own_bind]
  rcases (x.on s).value with ⟨_ | _, _⟩ <;> rfl

theorem Step.own_traced_bind {α β : Type} (x : Traced α) (f : α → Step β) (s : Session) :
    ((liftM x >>= f : Step β).on s).own = x.own ++ ((f x.value).on s).own := by
  rw [own_bind, on_traced, Traced.own_map, Traced.value_map]

theorem Step.own_query_bind {α β : Type} (q : Query α) (f : α → Step β) (s : Session) :
    ((liftM q >>= f : Step β).on s).own = q.run.own ++
      match q.run.value with
      | .ok a => ((f a).on s).own
      | .error _ => [] := by
  rw [own_bind, on_query, Traced.own_map, Traced.value_map]
  cases q.run.value <;> rfl

namespace Registry

/-- What is logged of the root: it is missing, unreadable or null. -/
def rootLog (r : Registry) : List Event :=
  match r.target.symbols.find r.layout.rootSymbol with
  | none => [.rootMissing r.layout.rootSymbol]
  | some symbol =>
    match r.target.memory.word symbol r.pointerWidth with
    | .error e => [.rootUnreadable r.layout.rootSymbol e]
    | .ok context => if context = 0 then [.contextNull] else []

/-- The root is there, and its word cannot be read. -/
def RootFails (r : Registry) (e : AccessError) : Prop :=
  ∃ symbol, r.target.symbols.find r.layout.rootSymbol = some symbol ∧
    r.target.memory.word symbol r.pointerWidth = .error e

theorem warnings_rootLog {r : Registry} {e : AccessError} (h : r.RootFails e) :
    r.rootLog.filter (·.level = .warn) = [.rootUnreadable r.layout.rootSymbol e] := by
  obtain ⟨symbol, hs, hw⟩ := h
  simp [rootLog, hs, hw, Event.level]

theorem warnings_rootLog_eq_nil {r : Registry} (h : ∀ e, ¬ r.RootFails e) :
    r.rootLog.filter (·.level = .warn) = [] := by
  unfold rootLog
  cases hs : r.target.symbols.find r.layout.rootSymbol with
  | none => rfl
  | some symbol =>
    cases hw : r.target.memory.word symbol r.pointerWidth with
    | error e => exact absurd ⟨symbol, hs, hw⟩ (h e)
    | ok context =>
      simp only [hw]
      split <;> rfl

theorem part_of_mem_rootLog {r : Registry} {e : Event} (he : e ∈ r.rootLog) : e.part = .root := by
  unfold rootLog at he
  split at he
  · exact Event.part_of_mem_singleton he
  · split at he
    · exact Event.part_of_mem_singleton he
    · split at he
      · exact Event.part_of_mem_singleton he
      · cases he

theorem own_readPointer (r : Registry) (addr : Addr) : (r.readPointer addr).run.own = [] := Query.own_ask _ _ _

theorem own_context (r : Registry) : r.context.run.own = r.rootLog := by
  have hlookup : (r.target.symbols.lookup r.layout.rootSymbol).run.own = [] := Query.own_ask _ _ _
  rw [context, Traced.own_run_bind, hlookup, Symbols.value_lookup, rootLog]
  cases r.target.symbols.find r.layout.rootSymbol with
  | none => rfl
  | some symbol =>
    change ((r.readPointer symbol).attempt >>= _ : Query (Option Addr)).run.own = _
    rw [Traced.own_run_bind, Query.run_attempt, Traced.own_map, Traced.value_map, own_readPointer, value_readPointer]
    dsimp only
    cases r.target.memory.word symbol r.pointerWidth with
    | error e => rfl
    | ok context =>
      change (if Addr.isNull context then _ else _ : Query (Option Addr)).run.own = _
      by_cases hz : context = 0
      · rw [if_pos (Addr.isNull_iff.2 hz), hz]
        rfl
      · rw [if_neg (mt Addr.isNull_iff.1 hz)]
        exact (if_neg hz).symm

theorem own_head (r : Registry) : r.head.run.own = r.rootLog := by
  rw [head, Traced.own_run_bind, own_context]
  rcases r.context.run.value with e | _ | context
  · exact List.append_nil _
  · exact List.append_nil _
  · dsimp only
    rw [Traced.own_run_bind, own_readPointer]
    cases (r.readPointer (context.offset r.layout.functionsOffset)).run.value <;> exact List.append_nil _

theorem own_node (r : Registry) (addr : Addr) : (r.node addr).run.own = [] := by
  simp only [node, Traced.own_run_bind, own_readPointer, value_readPointer, List.nil_append]
  split
  · split
    · split <;> rfl
    · rfl
  · rfl

end Registry

namespace FunctionChain

/-- The node at the place has this address, can be read in full, and its function has this range. -/
def ReadAt (chain : FunctionChain) (k : Nat) (addr : Addr) (range : CodeRange) : Prop :=
  ∃ node, chain.place k = .ok (some addr) ∧ (chain.node addr).run.value = .ok node ∧ range = node.range

def Quiet (chain : FunctionChain) : Prop := ∀ addr, (chain.node addr).run.own = []

theorem quiet_registry (r : Registry) : r.chain.Quiet := r.own_node

/-- What a search logs behind the head. -/
def readLog (chain : FunctionChain) (pc : Addr) : List Event :=
  match chain.head.run.value with
  | .ok head => (chain.scanFrom pc UInt64.size [] head).run.own
  | .error _ => []

variable {chain : FunctionChain} {pc : Addr}

theorem own_scan (chain : FunctionChain) (pc : Addr) :
    (chain.scan pc).run.own = chain.head.run.own ++ chain.readLog pc := by
  rw [scan, Traced.own_run_bind, run_liftQuery, Traced.own_map, Traced.value_map, readLog]
  cases chain.head.run.value <;> rfl

theorem own_scanFrom_of_notMem (hq : chain.Quiet) {room : Nat} {seen : List Addr} {addr : Addr}
    (hm : addr ∉ seen) :
    (chain.scanFrom pc (room + 1) seen (some addr)).run.own =
      match (chain.node addr).run.value with
      | .error _ => []
      | .ok node =>
        .nodeRead addr node.entryPoint node.codeEnd ::
          if node.range.contains pc then [] else (chain.scanFrom pc room (addr :: seen) node.next).run.own := by
  rw [Traced.own, Traced.events, notes_scanFrom_of_notMem hm, nodeNotes, List.filterMap_append, List.filter_append,
    List.filterMap_append, List.filter_append]
  change (chain.node addr).run.own ++ _ ++ _ = _
  rw [hq addr, List.nil_append]
  cases (chain.node addr).run.value with
  | error e => rfl
  | ok node =>
    dsimp only
    split <;> rfl

theorem part_of_mem_scanFrom (hq : chain.Quiet) {room : Nat} {seen : List Addr} {start : Option Addr}
    {e : Event} (he : e ∈ (chain.scanFrom pc room seen start).run.own) : e.part = .nodes := by
  induction room generalizing seen start with
  | zero => cases start <;> cases he
  | succ room ih =>
    cases start with
    | none => cases he
    | some addr =>
      by_cases hm : addr ∈ seen
      · rw [scanFrom_of_mem chain pc _ hm] at he
        cases he
      · rw [own_scanFrom_of_notMem hq hm] at he
        cases hn : (chain.node addr).run.value with
        | error e => simp [hn] at he
        | ok node =>
          simp only [hn] at he
          rcases List.mem_cons.1 he with rfl | he
          · rfl
          · split at he
            · cases he
            · exact ih he

theorem part_of_mem_readLog (hq : chain.Quiet) {e : Event} (he : e ∈ chain.readLog pc) : e.part = .nodes := by
  unfold readLog at he
  split at he
  · exact part_of_mem_scanFrom hq he
  · cases he

theorem readAt_iff {k : Nat} {start : Addr} {node : FunctionNode} (hp : chain.place k = .ok (some start))
    (hn : (chain.node start).run.value = .ok node) {addr : Addr} {range : CodeRange} :
    chain.ReadAt k addr range ↔ start = addr ∧ node.range = range := by
  constructor
  · rintro ⟨node', hp', hn', rfl⟩
    cases hp.symm.trans hp'
    cases hn.symm.trans hn'
    exact ⟨rfl, rfl⟩
  · rintro ⟨rfl, rfl⟩
    exact ⟨node, hp, hn, rfl⟩

theorem not_readAt {k : Nat} {place : Except AccessError (Option Addr)} (hp : chain.place k = place)
    (h : ∀ addr, place ≠ .ok (some addr)) (addr : Addr) (range : CodeRange) : ¬ chain.ReadAt k addr range := by
  rintro ⟨node, hp', -⟩
  exact h addr (hp.symm.trans hp')

theorem not_readAt_behind {k : Nat} (hk : ∀ addr range, ¬ chain.ReadAt k addr range) (i : Nat) (addr : Addr)
    (range : CodeRange) : ¬ ((∀ j < i, chain.PassesAt pc (k + j)) ∧ chain.ReadAt (k + i) addr range) := by
  rintro ⟨hp, hr⟩
  cases i with
  | zero => exact hk _ _ hr
  | succ i =>
    obtain ⟨addr', node, hplace, hnode, -⟩ := hp 0 (Nat.zero_lt_succ i)
    exact hk _ _ ⟨node, hplace, hnode, rfl⟩

/-- The events of a search from the place `k` on are those of the places that it comes to and can read. -/
theorem getElem?_nodes_scanFrom (hq : chain.Quiet) {room k : Nat} {seen : List Addr} {start : Option Addr}
    (hstart : chain.place k = .ok start) (hends : (chain.scanFrom pc room seen start).run.value ≠ .error .endless)
    (i : Nat) (addr : Addr) (range : CodeRange) :
    ((chain.scanFrom pc room seen start).run.own.filterMap Event.nodeRead?)[i]? = some (addr, range) ↔
      (∀ j < i, chain.PassesAt pc (k + j)) ∧ chain.ReadAt (k + i) addr range := by
  -- The first event is that of the place `k`; those behind it come from the search that goes on.
  induction room generalizing k seen start i with
  | zero =>
    cases start with
    | none =>
      have hend := not_readAt hstart (by simp)
      exact iff_of_false (fun h => nomatch h) (not_readAt_behind hend i addr range)
    | some start => exact absurd rfl hends
  | succ room ih =>
    cases start with
    | none =>
      have hend := not_readAt hstart (by simp)
      exact iff_of_false (fun h => nomatch h) (not_readAt_behind hend i addr range)
    | some start =>
      by_cases hm : start ∈ seen
      · rw [scanFrom_of_mem chain pc _ hm] at hends
        exact absurd rfl hends
      · rw [value_scanFrom_of_notMem chain pc room hm] at hends
        rw [own_scanFrom_of_notMem hq hm]
        cases hn : (chain.node start).run.value with
        | error e =>
          refine iff_of_false (fun h => nomatch h) (not_readAt_behind ?_ i addr range)
          rintro addr range ⟨node, hp, hnode, -⟩
          cases hstart.symm.trans hp
          cases hn.symm.trans hnode
        | ok node =>
          simp only [hn] at hends
          dsimp only
          rw [List.filterMap_cons]
          cases i with
          | zero =>
            simp [Event.nodeRead?, readAt_iff hstart hn, FunctionNode.range]
          | succ i =>
            have hplaces : k + (i + 1) = k + 1 + i := by omega
            have hfirst : (∀ j < i + 1, chain.PassesAt pc (k + j)) ↔
                chain.PassesAt pc k ∧ ∀ j < i, chain.PassesAt pc (k + 1 + j) := by
              simp only [Nat.add_right_comm k 1]
              exact Nat.forall_lt_succ_left
            rw [hfirst, hplaces, passesAt_iff hstart]
            cases hr : node.range.contains pc with
            | true => simp [Event.nodeRead?, hn, hr]
            | false => simpa [Event.nodeRead?, hn, hr] using ih (place_succ hstart hn) (by simpa [hr] using hends) i

/-- These are the nodes that a search for `pc` reads in full, in the order of the list. -/
def ReadsInOrder (chain : FunctionChain) (pc : Addr) (reads : List (Addr × CodeRange)) : Prop :=
  ∀ (k : Nat) (addr : Addr) (range : CodeRange), reads[k]? = some (addr, range) ↔
    (∀ j < k, chain.PassesAt pc j) ∧ chain.ReadAt k addr range

theorem readsInOrder_readLog (hq : chain.Quiet) (hends : (chain.scan pc).run.value ≠ .error .endless) :
    chain.ReadsInOrder pc ((chain.readLog pc).filterMap Event.nodeRead?) := by
  intro k addr range
  rw [value_scan] at hends
  rw [readLog]
  cases hh : chain.head.run.value with
  | error e =>
    have hplace : chain.place 0 = .error e := hh
    have hnone := not_readAt hplace (by simp)
    simpa using not_readAt_behind hnone k addr range
  | ok head =>
    simp only [hh] at hends
    have hstart : chain.place 0 = .ok head := hh
    simpa using getElem?_nodes_scanFrom hq hstart hends k addr range

theorem matchesAt_iff {k : Nat} {range : CodeRange} :
    chain.MatchesAt pc k range ↔ (∃ addr, chain.ReadAt k addr range) ∧ range.contains pc = true := by
  constructor
  · rintro ⟨addr, node, hp, hn, hc, rfl⟩
    exact ⟨⟨addr, node, hp, hn, rfl⟩, CodeRange.contains_iff.2 hc⟩
  · rintro ⟨⟨addr, node, hp, hn, rfl⟩, hc⟩
    exact ⟨addr, node, hp, hn, CodeRange.contains_iff.1 hc, rfl⟩

theorem ReadAt.not_passesAt {k : Nat} {addr : Addr} {range : CodeRange} (h : chain.ReadAt k addr range)
    (hc : range.contains pc = true) : ¬ chain.PassesAt pc k := by
  obtain ⟨node, hp, hn, rfl⟩ := h
  rw [passesAt_iff hp]
  rintro ⟨node', hn', hc'⟩
  cases hn.symm.trans hn'
  simp [hc] at hc'

theorem ReadsInOrder.firstMatch_iff {reads : List (Addr × CodeRange)} (h : chain.ReadsInOrder pc reads)
    {range : CodeRange} :
    chain.FirstMatch pc range ↔ range.contains pc = true ∧ ∃ addr, reads.getLast? = some (addr, range) := by
  simp only [FirstMatch, matchesAt_iff]
  constructor
  · rintro ⟨k, hpassed, ⟨addr, hread⟩, hc⟩
    have hk : reads[k]? = some (addr, range) := (h k addr range).2 ⟨hpassed, hread⟩
    have hlast : reads[k + 1]? = none := by
      refine Option.eq_none_iff_forall_ne_some.2 fun next hnext => ?_
      exact hread.not_passesAt hc (((h (k + 1) next.1 next.2).1 hnext).1 k (Nat.lt_succ_self k))
    have hlength : reads.length - 1 = k := by
      have hlt := (List.getElem?_eq_some_iff.1 hk).1
      have hle := List.getElem?_eq_none_iff.1 hlast
      omega
    refine ⟨hc, addr, ?_⟩
    rw [List.getLast?_eq_getElem?, hlength, hk]
  · rintro ⟨hc, addr, hlast⟩
    rw [List.getLast?_eq_getElem?] at hlast
    obtain ⟨hpassed, hread⟩ := (h _ addr range).1 hlast
    exact ⟨_, hpassed, ⟨addr, hread⟩, hc⟩

end FunctionChain

namespace Session

/-- What is logged of a range that another one takes the place of. -/
def replacementLog (s : Session) (key : Addr) (range : CodeRange) : List Event :=
  match s.cache.lookup key with
  | some old => if old ≠ range then [.rangeReplaced key old range] else []
  | none => []

theorem own_classify (s : Session) (key : Addr) (range : CodeRange) :
    (s.classify key range).own = s.replacementLog key range := by
  rw [classify, Traced.own_map, FrameCache.remember, replacementLog]
  cases s.cache.lookup key with
  | none => rfl
  | some old =>
    dsimp only
    split <;> rfl

/-- What is logged of a binding, if there is one. -/
def bindingLog (s : Session) : Option (Addr × CodeRange) → List Event
  | none => []
  | some (key, range) => .classified range :: s.replacementLog key range

theorem part_of_mem_bindingLog {s : Session} {b : Option (Addr × CodeRange)} {e : Event}
    (he : e ∈ s.bindingLog b) : e.part = .binding := by
  rcases b with _ | ⟨key, range⟩
  · cases he
  · rcases List.mem_cons.1 he with rfl | he
    · rfl
    · unfold replacementLog at he
      split at he
      · split at he
        · exact Event.part_of_mem_singleton he
        · cases he
      · cases he

end Session

namespace FunctionChain

variable {chain : FunctionChain}

theorem own_resolve (chain : FunctionChain) (pc key : Addr) (s : Session) :
    ((chain.resolve pc key).on s).own = .resolving pc key ::
      (chain.head.run.own ++ chain.readLog pc ++ s.bindingLog (chain.binding pc key)) := by
  have hclassified : ∀ range, (log (.classified range)).own = [.classified range] := fun _ => rfl
  rw [resolve, Step.own_traced_bind, Step.own_bind, Step.on_search, Traced.own_map, Traced.value_map, own_scan,
    binding, Traced.own_log rfl]
  rcases (chain.scan pc).run.value with h | _ | range
  · rfl
  · rfl
  · simp [Session.bindingLog, Session.own_classify, hclassified]

end FunctionChain

namespace Unwinder

/-- The step comes to a search: the unwinder is enabled, and both registers of the frame can be read. -/
def Reaches (u : Unwinder) (registers : Registers) (pc fp : Addr) : Prop :=
  u.enabled = true ∧ u.frameOf registers = .ok (pc, fp)

/-- What is logged of the answer to a search. -/
def answerLog (u : Unwinder) (chain : FunctionChain) (memory : Memory) (pc fp : Addr) : List Event :=
  match (chain.scan pc).run.value with
  | .error _ => []
  | .ok none => [.declined]
  | .ok (some range) =>
    match u.savedCaller memory fp with
    | .error _ => []
    | .ok caller => [.unwound range caller.id.programCounter caller.id.stackPointer]

variable {u : Unwinder} {chain : FunctionChain} {memory : Memory} {registers : Registers} {pc fp : Addr}

theorem own_unwindWith_of_reaches (h : u.Reaches registers pc fp) (s : Session) :
    ((u.unwindWith chain memory registers).on s).own =
      .unwinding u.name :: .registersRead pc fp :: .resolving pc fp ::
        (chain.head.run.own ++ chain.readLog pc ++ s.bindingLog (u.binding chain registers) ++
          u.answerLog chain memory pc fp) := by
  obtain ⟨he, hframe⟩ := h
  obtain ⟨hpc, hfp⟩ := frameOf_eq_ok_iff.1 hframe
  have hbinding : u.binding chain registers = chain.binding pc fp := by simp [binding, he, hframe]
  have hread : ∀ name, (registers.read name).run.own = [] := fun name => Query.own_ask _ _ _
  have hword : ∀ addr width, (memory.read addr width).run.own = [] := fun addr width => Query.own_ask _ _ _
  rw [unwindWith, Step.own_traced_bind]
  simp only [he, Bool.not_true, Bool.false_eq_true, if_false, Step.own_query_bind, hread, Registers.value_read, hpc,
    hfp]
  rw [Step.own_traced_bind, Step.own_bind, FunctionChain.own_resolve, FunctionChain.value_resolve_eq, hbinding]
  rw [Traced.own_log rfl, Traced.own_log rfl]
  simp only [List.nil_append, List.cons_append, List.cons.injEq, true_and, List.append_cancel_left_eq]
  rw [answerLog]
  rcases (chain.scan pc).run.value with h | _ | range
  · rfl
  · rfl
  · simp only [Step.own_query_bind, hword, Memory.value_read, List.nil_append]
    unfold savedCaller
    cases memory.word (fp.offset u.convention.savedFpOffset) u.convention.pointerWidth with
    | error e => rfl
    | ok callerFp =>
      dsimp only
      cases memory.word (fp.offset u.convention.savedPcOffset) u.convention.pointerWidth with
      | error e => rfl
      | ok callerPc => rfl

theorem own_unwindWith_of_not_reaches (h : ∀ pc fp, ¬ u.Reaches registers pc fp) (s : Session) :
    ((u.unwindWith chain memory registers).on s).own = [.unwinding u.name] := by
  have hread : ∀ name, (registers.read name).run.own = [] := fun name => Query.own_ask _ _ _
  rw [unwindWith, Step.own_traced_bind]
  cases he : u.enabled with
  | false => rfl
  | true =>
    simp only [Reaches, he, true_and, frameOf_eq_ok_iff, not_and] at h
    simp only [Bool.not_true, Bool.false_eq_true, if_false, Step.own_query_bind, hread, Registers.value_read]
    cases hpc : registers u.convention.pcRegister with
    | error e => rfl
    | ok pc =>
      cases hfp : registers u.convention.fpRegister with
      | error e => rfl
      | ok fp => exact absurd hfp (h pc fp hpc)

variable {target : Target} {s : Session}

theorem part_of_mem_answerLog {e : Event} (he : e ∈ u.answerLog chain memory pc fp) : e.part = .answer := by
  unfold answerLog at he
  split at he
  · cases he
  · exact Event.part_of_mem_singleton he
  · split at he
    · cases he
    · exact Event.part_of_mem_singleton he

/-- What each part of a step logs that comes to a search. -/
def partLog (u : Unwinder) (target : Target) (s : Session) (pc fp : Addr) : Event.Part → List Event
  | .frame => [.unwinding u.name, .registersRead pc fp, .resolving pc fp]
  | .root => (u.registry target).rootLog
  | .nodes => (u.registry target).chain.readLog pc
  | .binding => s.bindingLog ((u.registry target).chain.binding pc fp)
  | .answer => u.answerLog (u.registry target).chain target.memory pc fp
  | .walk | .other => []

theorem part_of_mem_partLog {part : Event.Part} {e : Event} (he : e ∈ u.partLog target s pc fp part) :
    e.part = part := by
  cases part with
  | frame =>
    simp only [partLog, List.mem_cons, List.not_mem_nil, or_false] at he
    rcases he with rfl | rfl | rfl <;> rfl
  | root => exact Registry.part_of_mem_rootLog he
  | nodes => exact FunctionChain.part_of_mem_readLog (FunctionChain.quiet_registry _) he
  | binding => exact Session.part_of_mem_bindingLog he
  | answer => exact part_of_mem_answerLog he
  | walk => cases he
  | other => cases he

theorem filter_partLog (part looked : Event.Part) :
    (u.partLog target s pc fp part).filter (·.part = looked) =
      if part = looked then u.partLog target s pc fp looked else [] := by
  split
  · rename_i h
    subst h
    exact List.filter_eq_self.2 fun e he => decide_eq_true (part_of_mem_partLog he)
  · rename_i h
    refine List.filter_eq_nil_iff.2 fun e he => ?_
    rw [part_of_mem_partLog he]
    simpa using h

theorem own_unwind_of_reaches (h : u.Reaches registers pc fp) (target : Target) (s : Session) :
    ((u.unwind target registers).on s).own =
      [Event.Part.frame, .root, .nodes, .binding, .answer].flatMap (u.partLog target s pc fp) := by
  have hbinding : u.binding (u.registry target).chain registers = (u.registry target).chain.binding pc fp := by
    simp [binding, h.1, h.2]
  have hroot : (u.registry target).chain.head.run.own = (u.registry target).rootLog := Registry.own_head _
  rw [unwind, own_unwindWith_of_reaches h, hbinding, hroot]
  simp [partLog]

theorem eventsOf_unwind_of_reaches (h : u.Reaches registers pc fp) (target : Target) (s : Session)
    {part : Event.Part} (hpart : part ≠ .other) :
    ((u.unwind target registers).on s).eventsOf part = u.partLog target s pc fp part := by
  rw [Traced.eventsOf_eq _ hpart, own_unwind_of_reaches h, List.filter_flatMap]
  simp only [filter_partLog]
  cases part <;> simp [partLog]

theorem eventsOf_unwind_of_not_reaches (h : ∀ pc fp, ¬ u.Reaches registers pc fp) (target : Target)
    (s : Session) {part : Event.Part} (hframe : part ≠ .frame) (hother : part ≠ .other) :
    ((u.unwind target registers).on s).eventsOf part = [] := by
  rw [Traced.eventsOf_eq _ hother, unwind, own_unwindWith_of_not_reaches h, List.filter_singleton]
  cases part <;> simp_all [Event.part]

end Unwinder
end JitFrames
