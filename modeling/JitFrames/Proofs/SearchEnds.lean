import Mathlib.Data.Fintype.Pigeonhole
import Mathlib.Data.List.Perm.Subperm
import JitFrames.Proofs.AccessOrder

/-! When the search of the function list ends. A loop that remembers nothing follows the list as the search
does, and ends exactly if it meets a reason to stop before it meets a node again. -/
namespace JitFrames.FunctionChain

/-- The loop that follows the list from a node, cut off after so many nodes; where it would go on it has no
answer yet. -/
def loopFrom (chain : FunctionChain) (pc : Addr) : Nat → Option Addr → Search (Option (Option CodeRange))
  | _, none => return some none
  | 0, some _ => return none
  | turns + 1, some addr => do
    let node ← chain.node addr
    log (.nodeRead addr node.entryPoint node.codeEnd)
    if node.range.contains pc then return some (some node.range)
    chain.loopFrom pc turns node.next

def loop (chain : FunctionChain) (pc : Addr) (turns : Nat) : Search (Option (Option CodeRange)) := do
  chain.loopFrom pc turns (← chain.head)

/-- The loop comes to an answer or to a failure. -/
def Ends (chain : FunctionChain) (pc : Addr) : Prop :=
  ∃ turns, (chain.loop pc turns).run.value ≠ .ok none

/-- There is a reason to stop at the node: it cannot be read, its function contains `pc`, or it is the last. -/
def StopsAt (chain : FunctionChain) (pc addr : Addr) : Prop :=
  (∃ e, (chain.node addr).run.value = .error e) ∨
    ∃ node, (chain.node addr).run.value = .ok node ∧
      ((node.entryPoint ≤ pc ∧ pc < node.codeEnd) ∨ node.next = none)

/-- From the place `k` on these are the nodes of the list, one after another. -/
def Leads (chain : FunctionChain) (k : Nat) (nodes : List Addr) : Prop :=
  ∀ j addr, nodes[j]? = some addr → chain.place (k + j) = .ok (some addr)

variable {chain : FunctionChain} {pc : Addr}

@[simp] theorem loopFrom_none (turns : Nat) : chain.loopFrom pc turns none = pure (some none) := by
  cases turns <;> rfl

theorem value_loopFrom_succ (turns : Nat) (addr : Addr) :
    (chain.loopFrom pc (turns + 1) (some addr)).run.value =
      match (chain.node addr).run.value with
      | .error e => .error (.failed e)
      | .ok node =>
        if node.range.contains pc then .ok (some (some node.range))
        else (chain.loopFrom pc turns node.next).run.value := by
  simp only [loopFrom, ExceptT.run_bind, Traced.value_bind, run_liftQuery]
  cases hn : (chain.node addr).run.value with
  | error e => simp [hn]
  | ok node =>
    simp only [Traced.value_map, hn, Halt.ofAnswer_ok, run_searchTraced, Traced.value_bind]
    split <;> simp_all

theorem value_loop (chain : FunctionChain) (pc : Addr) (turns : Nat) :
    (chain.loop pc turns).run.value =
      match chain.head.run.value with
      | .error e => .error (.failed e)
      | .ok head => (chain.loopFrom pc turns head).run.value := by
  simp only [loop, ExceptT.run_bind, run_liftQuery, Traced.value_bind, Traced.value_map]
  cases chain.head.run.value <;> rfl

/-- Where the search has an end, the loop asks, logs and answers as the search does. -/
theorem loopFrom_eq_scanFrom {turns room : Nat} {seen : List Addr} {start : Option Addr}
    (hloop : (chain.loopFrom pc turns start).run.value ≠ .ok none)
    (hscan : (chain.scanFrom pc room seen start).run.value ≠ .error .endless) :
    chain.loopFrom pc turns start = some <$> chain.scanFrom pc room seen start := by
  -- Both stand at one node. The search would have no end where it has passed the node before.
  induction turns generalizing room seen start with
  | zero =>
    cases start with
    | none => simp
    | some addr => exact absurd rfl hloop
  | succ turns ih =>
    cases start with
    | none => simp
    | some addr =>
      by_cases hm : addr ∈ seen
      · rw [scanFrom_of_mem chain pc room hm] at hscan
        exact absurd rfl hscan
      · cases room with
        | zero => exact absurd rfl hscan
        | succ room =>
          rw [value_loopFrom_succ] at hloop
          rw [value_scanFrom_of_notMem chain pc room hm] at hscan
          simp only [loopFrom, scanFrom, hm, if_false, map_bind]
          apply Query.bind_congr_answer
          intro node hn
          simp only [hn] at hloop hscan
          apply bind_congr
          intro _
          by_cases hr : node.range.contains pc
          · simp [hr]
          · simp only [hr] at hloop hscan ⊢
            exact ih hloop hscan

theorem loop_eq_scan {turns : Nat} (hloop : (chain.loop pc turns).run.value ≠ .ok none)
    (hscan : (chain.scan pc).run.value ≠ .error .endless) :
    chain.loop pc turns = some <$> chain.scan pc := by
  rw [value_loop] at hloop
  rw [value_scan] at hscan
  simp only [loop, scan, map_bind]
  apply Query.bind_congr_answer
  intro head hh
  simp only [hh] at hloop hscan
  exact loopFrom_eq_scanFrom hloop hscan

theorem passesAt_iff {k : Nat} {addr : Addr} (hp : chain.place k = .ok (some addr)) :
    chain.PassesAt pc k ↔
      ∃ node, (chain.node addr).run.value = .ok node ∧ node.range.contains pc = false := by
  simp [PassesAt, hp, ← Bool.not_eq_true, FunctionNode.range]

theorem loopFrom_under_way_iff {turns k : Nat} {start : Option Addr} (hstart : chain.place k = .ok start) :
    (chain.loopFrom pc turns start).run.value = .ok none ↔
      (∀ j < turns, chain.PassesAt pc (k + j)) ∧ ∃ addr, chain.place (k + turns) = .ok (some addr) := by
  induction turns generalizing k start with
  | zero =>
    cases start with
    | none => simp [hstart]
    | some addr =>
      have hv : (chain.loopFrom pc 0 (some addr)).run.value = .ok none := rfl
      simp [hstart, hv]
  | succ turns ih =>
    have hplaces : k + (turns + 1) = k + 1 + turns := by omega
    have hfirst : (∀ j < turns + 1, chain.PassesAt pc (k + j)) ↔
        chain.PassesAt pc k ∧ ∀ j < turns, chain.PassesAt pc (k + 1 + j) := by
      simp only [Nat.add_right_comm k 1]
      exact Nat.forall_lt_succ_left
    rw [hfirst, hplaces]
    cases start with
    | none => simp [PassesAt, hstart]
    | some addr =>
      rw [value_loopFrom_succ, passesAt_iff hstart]
      cases hn : (chain.node addr).run.value with
      | error e => simp
      | ok node =>
        cases hr : node.range.contains pc with
        | true => simp [hr]
        | false => simpa [hr] using ih (place_succ hstart hn)

theorem loop_never_ends_iff :
    (∀ turns, (chain.loop pc turns).run.value = .ok none) ↔ ∀ k, chain.PassesAt pc k := by
  simp only [value_loop]
  cases hh : chain.head.run.value with
  | error e =>
    have hp : ¬ chain.PassesAt pc 0 := by simp [PassesAt, place, hh]
    simpa using ⟨0, hp⟩
  | ok head =>
    have hstart : chain.place 0 = .ok head := hh
    simp only [loopFrom_under_way_iff hstart, Nat.zero_add]
    constructor
    · intro h k
      exact (h (k + 1)).1 k (Nat.lt_succ_self k)
    · intro h turns
      obtain ⟨addr, node, hp, -⟩ := h turns
      exact ⟨fun j _ => h j, addr, hp⟩

theorem not_ends_iff : ¬ chain.Ends pc ↔ ∀ k, chain.PassesAt pc k := by
  simp only [Ends, not_exists, not_not, loop_never_ends_iff]

theorem ends_iff : chain.Ends pc ↔ (chain.scan pc).run.value ≠ .error .endless := by
  rw [ne_eq, value_scan_eq_endless_iff, ← not_ends_iff, not_not]

def nodeNotes (chain : FunctionChain) (addr : Addr) : List Note :=
  (chain.node addr).run.notes ++
    match (chain.node addr).run.value with
    | .error _ => []
    | .ok node => [.event (.nodeRead addr node.entryPoint node.codeEnd)]

theorem notes_scanFrom_of_notMem {room : Nat} {seen : List Addr} {addr : Addr} (hm : addr ∉ seen) :
    (chain.scanFrom pc (room + 1) seen (some addr)).run.notes =
      chain.nodeNotes addr ++
        match (chain.node addr).run.value with
        | .error _ => []
        | .ok node =>
          if node.range.contains pc then []
          else (chain.scanFrom pc room (addr :: seen) node.next).run.notes := by
  simp only [scanFrom, hm, if_false, ExceptT.run_bind, Traced.notes_bind, run_liftQuery, Traced.notes_map,
    Traced.value_map, nodeNotes]
  cases hn : (chain.node addr).run.value with
  | error e => simp
  | ok node =>
    by_cases hr : node.range.contains pc
    · simp [hr]
    · simp [hr]

/-- A search that ends has come from the place `k` to these nodes. -/
structure Reads (chain : FunctionChain) (pc : Addr) (k : Nat) (nodes : List Addr) : Prop where
  nodup : nodes.Nodup
  leads : chain.Leads k nodes
  readable : ∀ addr ∈ nodes.dropLast, ∃ node, (chain.node addr).run.value = .ok node
  stops : ∀ addr ∈ nodes.getLast?, chain.StopsAt pc addr

theorem Reads.cons {k : Nat} {addr : Addr} {node : FunctionNode} {nodes : List Addr}
    (h : chain.Reads pc (k + 1) nodes) (hp : chain.place k = .ok (some addr)) (hm : addr ∉ nodes)
    (hn : (chain.node addr).run.value = .ok node) (hlast : nodes = [] → node.next = none) :
    chain.Reads pc k (addr :: nodes) where
  nodup := List.nodup_cons.2 ⟨hm, h.nodup⟩
  leads := by
    intro j a hj
    cases j with
    | zero =>
      obtain rfl : addr = a := by simpa using hj
      exact hp
    | succ j =>
      have hl := h.leads j a (by simpa using hj)
      rwa [Nat.add_right_comm] at hl
  readable := by
    intro a ha
    cases nodes with
    | nil => simp at ha
    | cons b nodes =>
      rw [List.dropLast_cons_cons] at ha
      obtain rfl | ha := List.mem_cons.1 ha
      · exact ⟨node, hn⟩
      · exact h.readable a ha
  stops := by
    intro a ha
    cases nodes with
    | nil =>
      obtain rfl : addr = a := by simpa using ha
      exact .inr ⟨node, hn, .inr (hlast rfl)⟩
    | cons b nodes => exact h.stops a (by simpa using ha)

theorem Reads.single {k : Nat} {addr : Addr} (hp : chain.place k = .ok (some addr))
    (hs : chain.StopsAt pc addr) : chain.Reads pc k [addr] where
  nodup := List.nodup_singleton addr
  leads := by
    intro j a hj
    obtain ⟨rfl, rfl⟩ : j = 0 ∧ addr = a := by simpa [List.getElem?_singleton] using hj
    exact hp
  readable := by simp
  stops := by simpa using hs

theorem Reads.nil (k : Nat) : chain.Reads pc k [] where
  nodup := List.nodup_nil
  leads := by simp [Leads]
  readable := by simp
  stops := by simp

theorem exists_reads_scanFrom {room k : Nat} {seen : List Addr} {start : Option Addr}
    (hstart : chain.place k = .ok start)
    (hscan : (chain.scanFrom pc room seen start).run.value ≠ .error .endless) :
    ∃ nodes, chain.Reads pc k nodes ∧ (nodes = [] → start = none) ∧ (∀ addr ∈ nodes, addr ∉ seen) ∧
      (chain.scanFrom pc room seen start).run.notes = nodes.flatMap chain.nodeNotes := by
  -- That the nodes are new to `seen` goes through the induction: it keeps a node from coming twice.
  induction room generalizing k seen start with
  | zero =>
    cases start with
    | none => exact ⟨[], .nil k, fun _ => rfl, by simp, rfl⟩
    | some addr => exact absurd rfl hscan
  | succ room ih =>
    cases start with
    | none => exact ⟨[], .nil k, fun _ => rfl, by simp, rfl⟩
    | some addr =>
      by_cases hm : addr ∈ seen
      · rw [scanFrom_of_mem chain pc _ hm] at hscan
        exact absurd rfl hscan
      · rw [value_scanFrom_of_notMem chain pc room hm] at hscan
        rw [notes_scanFrom_of_notMem hm]
        cases hn : (chain.node addr).run.value with
        | error e => exact ⟨[addr], .single hstart (.inl ⟨e, hn⟩), by simp, by simpa using hm, by simp⟩
        | ok node =>
          simp only [hn] at hscan
          by_cases hr : node.range.contains pc
          · have hstop : chain.StopsAt pc addr := .inr ⟨node, hn, .inl (CodeRange.contains_iff.1 hr)⟩
            exact ⟨[addr], .single hstart hstop, by simp, by simpa using hm, by simp [hr]⟩
          · simp only [hr] at hscan
            obtain ⟨nodes, hreads, hlast, hfresh, hnotes⟩ := ih (place_succ hstart hn) hscan
            have hnew : addr ∉ nodes := fun ha => hfresh addr ha List.mem_cons_self
            refine ⟨addr :: nodes, hreads.cons hstart hnew hn hlast, by simp, ?_, by simp [hr, hnotes]⟩
            intro a ha
            obtain rfl | ha := List.mem_cons.1 ha
            · exact hm
            · exact fun hs => hfresh a ha (List.mem_cons_of_mem addr hs)

theorem exists_reads (h : chain.Ends pc) :
    ∃ nodes, chain.Reads pc 0 nodes ∧
      (nodes = [] → (∃ e, chain.head.run.value = .error e) ∨ chain.head.run.value = .ok none) ∧
      (chain.scan pc).run.notes = chain.head.run.notes ++ nodes.flatMap chain.nodeNotes := by
  have hscan := ends_iff.1 h
  rw [value_scan] at hscan
  simp only [scan, ExceptT.run_bind, Traced.notes_bind, run_liftQuery, Traced.notes_map, Traced.value_map]
  cases hh : chain.head.run.value with
  | error e => exact ⟨[], .nil 0, fun _ => .inl ⟨e, rfl⟩, by simp⟩
  | ok head =>
    simp only [hh] at hscan
    have hstart : chain.place 0 = .ok head := hh
    obtain ⟨nodes, hreads, hlast, -, hnotes⟩ := exists_reads_scanFrom hstart hscan
    exact ⟨nodes, hreads, fun hnil => .inr (by rw [hlast hnil]), by simp [hnotes]⟩

theorem Reads.length_le {k : Nat} {nodes readable : List Addr} (h : chain.Reads pc k nodes)
    (hreadable : ∀ addr node, (chain.node addr).run.value = .ok node → addr ∈ readable) :
    nodes.length ≤ readable.length + 1 := by
  have hd : nodes.dropLast.Nodup := h.nodup.sublist (List.dropLast_sublist nodes)
  have hs : nodes.dropLast ⊆ readable := by
    intro addr ha
    obtain ⟨node, hn⟩ := h.readable addr ha
    exact hreadable addr node hn
  have hle := (hd.subperm hs).length_le
  rw [List.length_dropLast] at hle
  omega

theorem not_passes_of_stopsAt {k : Nat} {addr : Addr} (hp : chain.place k = .ok (some addr))
    (hs : chain.StopsAt pc addr) : ¬ ∀ j, chain.PassesAt pc j := by
  intro hpasses
  obtain ⟨_, node, hp', hn, hr⟩ := hpasses k
  rw [hp] at hp'
  cases hp'
  obtain ⟨e, he⟩ | ⟨node', hn', hc | hnext⟩ := hs
  · rw [hn] at he
    cases he
  · rw [hn] at hn'
    cases hn'
    exact hr hc
  · rw [hn] at hn'
    cases hn'
    obtain ⟨_, _, hlater, -⟩ := hpasses (k + 1)
    rw [place_succ hp hn, hnext] at hlater
    cases hlater

theorem ends_iff_stops : chain.Ends pc ↔
    (∃ e, chain.head.run.value = .error e) ∨ chain.head.run.value = .ok none ∨
      ∃ nodes last, nodes.Nodup ∧ chain.Leads 0 nodes ∧ nodes.getLast? = some last ∧
        chain.StopsAt pc last := by
  constructor
  · intro h
    obtain ⟨nodes, hreads, hnil, -⟩ := exists_reads h
    cases hl : nodes.getLast? with
    | none =>
      obtain he | hn := hnil (List.getLast?_eq_none_iff.1 hl)
      · exact .inl he
      · exact .inr (.inl hn)
    | some last => exact .inr (.inr ⟨nodes, last, hreads.nodup, hreads.leads, hl, hreads.stops last hl⟩)
  · intro h
    rw [← not_not (a := chain.Ends pc), not_ends_iff]
    obtain ⟨e, he⟩ | hn | ⟨nodes, last, -, hleads, hl, hs⟩ := h
    · intro hpasses
      obtain ⟨_, _, hp, -⟩ := hpasses 0
      rw [place, he] at hp
      cases hp
    · intro hpasses
      obtain ⟨_, _, hp, -⟩ := hpasses 0
      rw [place, hn] at hp
      cases hp
    · rw [List.getLast?_eq_getElem?] at hl
      exact not_passes_of_stopsAt (hleads _ last hl) hs

theorem passes_forever_iff : (∀ k, chain.PassesAt pc k) ↔
    ∃ first again, first < again ∧ chain.place first = chain.place again ∧
      ∀ k < again, chain.PassesAt pc k := by
  constructor
  · intro h
    have hplaces : ∀ k, ∃ addr, chain.place k = .ok (some addr) := by
      intro k
      obtain ⟨addr, _, hp, -⟩ := h k
      exact ⟨addr, hp⟩
    choose addr haddr using hplaces
    -- There are only so many addresses, so two of the places have one.
    have hfinite : Finite Addr := Finite.of_injective UInt64.toFin fun a b => UInt64.toFin_inj.1
    obtain ⟨j, k, hne, heq⟩ := Finite.exists_ne_map_eq_of_infinite addr
    have hplace : chain.place j = chain.place k := by rw [haddr, haddr, heq]
    obtain hlt | hlt := Nat.lt_or_gt_of_ne hne
    · exact ⟨j, k, hlt, hplace, fun i _ => h i⟩
    · exact ⟨k, j, hlt, hplace.symm, fun i _ => h i⟩
  · rintro ⟨first, again, hlt, hplace, hpasses⟩ k
    simp only [← answerAt_eq_none_iff] at hpasses ⊢
    exact answerAt_eq_none_of_cycle hlt hplace hpasses k

theorem readable_before {k : Nat} {addr : Addr} (hp : chain.place k = .ok (some addr)) {j : Nat} (hj : j < k) :
    ∃ a node, chain.place j = .ok (some a) ∧ (chain.node a).run.value = .ok node := by
  induction k generalizing addr with
  | zero => omega
  | succ k ih =>
    rw [place] at hp
    rcases hk : chain.place k with e | _ | a <;> rw [hk] at hp
    · cases hp
    · cases hp
    · cases hn : (chain.node a).run.value with
      | error e =>
        simp [hn, Except.map] at hp
      | ok node =>
        obtain hj | rfl := Nat.lt_succ_iff_lt_or_eq.1 hj
        · exact ih hk hj
        · exact ⟨a, node, hk, hn⟩

theorem exists_firstMatch {k : Nat} {range : CodeRange} (h : chain.MatchesAt pc k range) :
    ∃ found, chain.FirstMatch pc found := by
  induction k using Nat.strongRecOn generalizing range with
  | ind k ih =>
    by_cases hearlier : ∃ j < k, ∃ r, chain.MatchesAt pc j r
    · obtain ⟨j, hj, r, hr⟩ := hearlier
      exact ih j hj hr
    · refine ⟨range, k, ?_, h⟩
      intro j hj
      obtain ⟨addr, _, hp, -⟩ := h
      obtain ⟨a, node, hpj, hn⟩ := readable_before hp hj
      refine ⟨a, node, hpj, hn, ?_⟩
      intro hc
      exact hearlier ⟨j, hj, _, a, node, hpj, hn, hc, rfl⟩

theorem accesses_resolve (chain : FunctionChain) (pc key : Addr) (s : Session) :
    ((chain.resolve pc key).on s).accesses = (chain.scan pc).run.accesses := by
  simp only [resolve, Step.on_bind, Step.on_traced, Step.on_search, Traced.accesses_bind, Traced.accesses_map,
    accesses_log, List.nil_append, Traced.value_map, Step.resume_ok]
  obtain h | _ | range := (chain.scan pc).run.value
  · simp
  · simp
  · simp [Session.accesses_classify]

theorem accesses_nodeNotes (nodes : List Addr) : (nodes.flatMap chain.nodeNotes).filterMap Note.access? =
    nodes.flatMap fun addr => (chain.node addr).run.accesses := by
  rw [List.filterMap_flatMap]
  apply List.flatMap_congr
  intro addr _
  rw [nodeNotes, List.filterMap_append]
  cases (chain.node addr).run.value <;> simp [Traced.accesses, Note.access?]

/-- The search ends exactly if it meets a reason to stop before a node comes again, and has then asked for no
node twice; else the places passed lead into a circle. -/
theorem resolve_ends_iff (chain : FunctionChain) (pc key : Addr) (s : Session) :
    let result := (chain.resolve pc key).on s
    (result.value.1 ≠ .error .endless ↔ chain.Ends pc) ∧
    (chain.Ends pc → ∀ turns, (chain.loop pc turns).run.value ≠ .ok none →
      chain.loop pc turns = some <$> chain.scan pc) ∧
    (chain.Ends pc ↔
      (∃ e, chain.head.run.value = .error e) ∨ chain.head.run.value = .ok none ∨
        ∃ nodes last, nodes.Nodup ∧ chain.Leads 0 nodes ∧ nodes.getLast? = some last ∧
          chain.StopsAt pc last) ∧
    (chain.Ends pc → ∃ nodes, nodes.Nodup ∧ chain.Leads 0 nodes ∧
      result.accesses =
        chain.head.run.accesses ++ nodes.flatMap (fun addr => (chain.node addr).run.accesses) ∧
      ∀ readable : List Addr, (∀ addr node, (chain.node addr).run.value = .ok node → addr ∈ readable) →
        nodes.length ≤ readable.length + 1) ∧
    (¬ chain.Ends pc ↔
      ∃ first again, first < again ∧ chain.place first = chain.place again ∧
        ∀ k < again, chain.PassesAt pc k) ∧
    (∀ k range, chain.MatchesAt pc k range → ∃ found, chain.FirstMatch pc found ∧
      result.value = (.ok (some found), { s with cache := s.cache.insert key found })) ∧
    ((∀ j k addr, chain.place j = .ok (some addr) → chain.place k = .ok (some addr) → j = k) →
      chain.Ends pc) := by
  intro result
  have hendless : ¬ chain.Ends pc ↔ ∃ first again, first < again ∧ chain.place first = chain.place again ∧
      ∀ k < again, chain.PassesAt pc k := not_ends_iff.trans passes_forever_iff
  refine ⟨?_, ?_, ends_iff_stops, ?_, hendless, ?_, ?_⟩
  · rw [ends_iff, fst_resolve]
  · intro h turns hloop
    exact loop_eq_scan hloop (ends_iff.1 h)
  · intro h
    obtain ⟨nodes, hreads, -, hnotes⟩ := exists_reads h
    refine ⟨nodes, hreads.nodup, hreads.leads, ?_, fun readable => hreads.length_le⟩
    rw [accesses_resolve, Traced.accesses, hnotes, List.filterMap_append, accesses_nodeNotes]
    rfl
  · intro k range hmatch
    obtain ⟨found, hfound⟩ := exists_firstMatch hmatch
    refine ⟨found, hfound, ?_⟩
    simp [result, value_resolve, value_scan_eq_match_iff.2 hfound]
  · intro hacyclic
    apply Classical.byContradiction
    intro h
    obtain ⟨first, again, hlt, hplace, hpasses⟩ := hendless.1 h
    obtain ⟨addr, _, hp, -⟩ := hpasses first hlt
    have heq := hacyclic first again addr hp (hplace ▸ hp)
    omega

end JitFrames.FunctionChain
