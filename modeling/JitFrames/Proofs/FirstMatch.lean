import JitFrames.FunctionChain
import Mathlib.Data.Fintype.Card

/-! The search of the function list, read off the list itself. The places of the list are its head and, from
there on, one link after another; the main statement is that the search gives the first answer along them. -/
namespace JitFrames

theorem Traced.bind_congr_value {α β : Type} (x : Traced α) {f g : α → Traced β}
    (h : f x.value = g x.value) : x >>= f = x >>= g := by
  ext <;> simp [h]

theorem Query.bind_congr_answer {α β : Type} (q : Query α) {f g : α → Search β}
    (h : ∀ a, q.run.value = .ok a → f a = g a) : (liftM q >>= f : Search β) = liftM q >>= g := by
  refine ExceptT.ext ?_
  rw [ExceptT.run_bind, ExceptT.run_bind, run_liftQuery]
  refine Traced.bind_congr_value _ ?_
  rw [Traced.value_map]
  cases hq : q.run.value with
  | error e => rfl
  | ok a => simp only [Halt.ofAnswer_ok, h a hq]

namespace FunctionChain

/-- The addresses of the list in order. Behind its last node there is none; behind a node that cannot be
read there is the error of reading it. -/
def place (chain : FunctionChain) : Nat → Except AccessError (Option Addr)
  | 0 => chain.head.run.value
  | k + 1 =>
    match chain.place k with
    | .error e => .error e
    | .ok none => .ok none
    | .ok (some addr) => (chain.node addr).run.value.map (·.next)

/-- A readable node stands at the place, and its function does not contain `pc`. -/
def PassesAt (chain : FunctionChain) (pc : Addr) (k : Nat) : Prop :=
  ∃ addr node, chain.place k = .ok (some addr) ∧ (chain.node addr).run.value = .ok node ∧
    ¬ (node.entryPoint ≤ pc ∧ pc < node.codeEnd)

def MatchesAt (chain : FunctionChain) (pc : Addr) (k : Nat) (range : CodeRange) : Prop :=
  ∃ addr node, chain.place k = .ok (some addr) ∧ (chain.node addr).run.value = .ok node ∧
    (node.entryPoint ≤ pc ∧ pc < node.codeEnd) ∧ range = ⟨node.entryPoint, node.codeEnd⟩

def FirstMatch (chain : FunctionChain) (pc : Addr) (range : CodeRange) : Prop :=
  ∃ k, (∀ j < k, chain.PassesAt pc j) ∧ chain.MatchesAt pc k range

/-- The head cannot be read, or the node at the place cannot. -/
def FailsAt (chain : FunctionChain) (k : Nat) (e : AccessError) : Prop :=
  k = 0 ∧ chain.head.run.value = .error e ∨
    ∃ addr, chain.place k = .ok (some addr) ∧ (chain.node addr).run.value = .error e

/-- The answer that a place gives to a search for `pc`, unless it is passed. -/
def answerAt (chain : FunctionChain) (pc : Addr) (k : Nat) :
    Option (Except AccessError (Option CodeRange)) :=
  match chain.place k with
  | .error e => some (.error e)
  | .ok none => some (.ok none)
  | .ok (some addr) =>
    match (chain.node addr).run.value with
    | .error e => some (.error e)
    | .ok node => if node.range.contains pc then some (.ok (some node.range)) else none

/-- What a search for `pc` comes to along the list. -/
inductive Outcome (chain : FunctionChain) (pc : Addr) : Except Halt (Option CodeRange) → Prop
  | answered {k : Nat} {r : Except AccessError (Option CodeRange)}
      (passed : ∀ j < k, chain.answerAt pc j = none) (answer : chain.answerAt pc k = some r) :
      Outcome chain pc (Halt.ofAnswer r)
  | endless (passed : ∀ k, chain.answerAt pc k = none) : Outcome chain pc (.error .endless)

variable {chain : FunctionChain} {pc : Addr}

theorem place_succ {k : Nat} {addr : Addr} {node : FunctionNode} (hp : chain.place k = .ok (some addr))
    (hn : (chain.node addr).run.value = .ok node) : chain.place (k + 1) = .ok node.next := by
  simp [place, hp, hn, Except.map]

theorem answerAt_of_node {k : Nat} {addr : Addr} (hp : chain.place k = .ok (some addr)) :
    chain.answerAt pc k =
      match (chain.node addr).run.value with
      | .error e => some (.error e)
      | .ok node => if node.range.contains pc then some (.ok (some node.range)) else none := by
  simp [answerAt, hp]

theorem answerAt_eq_none_iff {k : Nat} : chain.answerAt pc k = none ↔ chain.PassesAt pc k := by
  unfold answerAt PassesAt
  rcases chain.place k with e | _ | addr
  · simp
  · simp
  · cases hn : (chain.node addr).run.value with
    | error e => simp [hn]
    | ok node => simp [hn, FunctionNode.range]

theorem answerAt_eq_match_iff {k : Nat} {range : CodeRange} :
    chain.answerAt pc k = some (.ok (some range)) ↔ chain.MatchesAt pc k range := by
  unfold answerAt MatchesAt
  rcases chain.place k with e | _ | addr
  · simp
  · simp
  · cases hn : (chain.node addr).run.value with
    | error e => simp [hn]
    | ok node =>
      have hr : (⟨node.entryPoint, node.codeEnd⟩ : CodeRange) = range ↔
        range = ⟨node.entryPoint, node.codeEnd⟩ := eq_comm
      simp [hn, FunctionNode.range, hr]

theorem answerAt_eq_end_iff {k : Nat} :
    chain.answerAt pc k = some (.ok none) ↔ chain.place k = .ok none := by
  unfold answerAt
  rcases chain.place k with e | _ | addr
  · simp
  · simp
  · cases hn : (chain.node addr).run.value <;> simp [hn]

theorem place_ne_error {k : Nat} (hk : 0 < k) (h : ∀ j < k, chain.answerAt pc j = none) (e : AccessError) :
    chain.place k ≠ .error e := by
  obtain ⟨i, rfl⟩ : ∃ i, k = i + 1 := ⟨k - 1, by omega⟩
  obtain ⟨addr, node, hp, hn, _⟩ := answerAt_eq_none_iff.1 (h i (by omega))
  rw [place_succ hp hn]
  simp

theorem answerAt_eq_error_iff {k : Nat} {e : AccessError} (h : ∀ j < k, chain.answerAt pc j = none) :
    chain.answerAt pc k = some (.error e) ↔ chain.FailsAt k e := by
  unfold answerAt FailsAt
  cases hp : chain.place k with
  | error e' =>
    have hk : k = 0 := Nat.eq_zero_of_not_pos fun hk => place_ne_error hk h e' hp
    subst hk
    have hh : chain.head.run.value = .error e' := hp
    simp [hh]
  | ok addr? =>
    have hh : ¬ (k = 0 ∧ chain.head.run.value = .error e) := by
      rintro ⟨rfl, hh⟩
      rw [place, hh] at hp
      cases hp
    cases addr? with
    | none => simp [hh]
    | some addr =>
      cases hn : (chain.node addr).run.value with
      | error e' => simp [hh, hn]
      | ok node => simp [hh, hn]

theorem Outcome.unique {r r' : Except Halt (Option CodeRange)} (h : chain.Outcome pc r)
    (h' : chain.Outcome pc r') : r = r' := by
  cases h with
  | endless hp =>
    cases h' with
    | endless => rfl
    | answered _ ha => simp [hp] at ha
  | @answered k a hp ha =>
    cases h' with
    | endless hp' => simp [hp'] at ha
    | @answered k' a' hp' ha' =>
      rcases Nat.lt_trichotomy k k' with hlt | rfl | hlt
      · simp [hp' k hlt] at ha
      · rw [ha] at ha'
        rw [Option.some.inj ha']
      · simp [hp k' hlt] at ha'

theorem place_add_eq {i j : Nat} (h : chain.place i = chain.place j) (m : Nat) :
    chain.place (i + m) = chain.place (j + m) := by
  induction m with
  | zero => exact h
  | succ m ih =>
    change chain.place (i + m + 1) = chain.place (j + m + 1)
    simp only [place, ih]

theorem answerAt_eq_none_of_cycle {j k : Nat} (hjk : j < k) (hc : chain.place j = chain.place k)
    (hp : ∀ i < k, chain.answerAt pc i = none) (m : Nat) : chain.answerAt pc m = none := by
  induction m using Nat.strongRecOn with
  | ind m ih =>
    by_cases hm : m < k
    · exact hp m hm
    · have he : chain.place m = chain.place (j + (m - k)) := by
        have ha := place_add_eq hc (m - k)
        rw [show k + (m - k) = m by omega] at ha
        exact ha.symm
      have hi := ih (j + (m - k)) (by omega)
      unfold answerAt at hi ⊢
      rw [he]
      exact hi

theorem mem_of_nodup_addr {seen : List Addr} (h : seen.Nodup) (hl : UInt64.size ≤ seen.length) (addr : Addr) :
    addr ∈ seen := by
  by_contra hm
  have hnodup : ((addr :: seen).map UInt64.toFin).Nodup :=
    (List.nodup_cons.2 ⟨hm, h⟩).map fun a b => UInt64.toFin_inj.1
  have hcard := hnodup.length_le_card
  rw [Fintype.card_fin, List.length_map, List.length_cons] at hcard
  omega

/-- The search at a place, where `seen` holds the nodes passed before. Room runs out only where every
address has been passed, so there too the node is one met again. -/
theorem outcome_scanFrom {room k : Nat} {seen : List Addr} {start : Option Addr}
    (hroom : room + seen.length = UInt64.size) (hnd : seen.Nodup)
    (hseen : ∀ a ∈ seen, ∃ j < k, chain.place j = .ok (some a))
    (hpassed : ∀ j < k, chain.answerAt pc j = none) (hstart : chain.place k = .ok start) :
    chain.Outcome pc (chain.scanFrom pc room seen start).run.value := by
  induction room generalizing k seen start with
  | zero =>
    cases start with
    | none =>
      rw [scanFrom_none]
      exact .answered hpassed (answerAt_eq_end_iff.2 hstart)
    | some addr =>
      have hm : addr ∈ seen := mem_of_nodup_addr hnd (by omega) addr
      obtain ⟨j, hj, hc⟩ := hseen addr hm
      rw [scanFrom_of_mem chain pc 0 hm]
      exact .endless (answerAt_eq_none_of_cycle hj (hc.trans hstart.symm) hpassed)
  | succ room ih =>
    cases start with
    | none =>
      rw [scanFrom_none]
      exact .answered hpassed (answerAt_eq_end_iff.2 hstart)
    | some addr =>
      by_cases hm : addr ∈ seen
      · obtain ⟨j, hj, hc⟩ := hseen addr hm
        rw [scanFrom_of_mem chain pc _ hm]
        exact .endless (answerAt_eq_none_of_cycle hj (hc.trans hstart.symm) hpassed)
      · rw [value_scanFrom_of_notMem chain pc room hm]
        have ha := @answerAt_of_node chain pc _ _ hstart
        cases hn : (chain.node addr).run.value with
        | error e =>
          rw [hn] at ha
          exact .answered hpassed ha
        | ok node =>
          simp only [hn] at ha ⊢
          split at ha
          · rename_i hr
            rw [if_pos hr]
            exact .answered hpassed ha
          · rename_i hr
            rw [if_neg hr]
            refine ih (by simpa using by omega) (List.nodup_cons.2 ⟨hm, hnd⟩) ?_ ?_ (place_succ hstart hn)
            · intro a ha'
              rcases List.mem_cons.1 ha' with rfl | ha'
              · exact ⟨k, by omega, hstart⟩
              · obtain ⟨j, hj, hp⟩ := hseen a ha'
                exact ⟨j, by omega, hp⟩
            · intro j hj
              rcases Nat.lt_succ_iff_lt_or_eq.1 hj with hj | rfl
              · exact hpassed j hj
              · exact ha

theorem outcome_scan (chain : FunctionChain) (pc : Addr) : chain.Outcome pc (chain.scan pc).run.value := by
  rw [value_scan]
  cases hh : chain.head.run.value with
  | error e =>
    have ha : chain.answerAt pc 0 = some (.error e) := by simp [answerAt, place, hh]
    exact .answered (by simp) ha
  | ok head =>
    have hp : chain.place 0 = .ok head := hh
    exact outcome_scanFrom rfl List.nodup_nil (by simp) (by simp) hp

theorem value_scan_eq_iff {r : Except Halt (Option CodeRange)} :
    (chain.scan pc).run.value = r ↔ chain.Outcome pc r :=
  ⟨fun h => h ▸ outcome_scan chain pc, fun h => (outcome_scan chain pc).unique h⟩

theorem value_scan_eq_ofAnswer_iff {r : Except AccessError (Option CodeRange)} :
    (chain.scan pc).run.value = Halt.ofAnswer r ↔
      ∃ k, (∀ j < k, chain.answerAt pc j = none) ∧ chain.answerAt pc k = some r := by
  rw [value_scan_eq_iff]
  constructor
  · intro h
    generalize hr : Halt.ofAnswer r = r' at h
    cases h with
    | @answered k a hp ha =>
      have he : r = a := by cases r <;> cases a <;> simp_all
      exact ⟨k, hp, he ▸ ha⟩
    | endless => cases r <;> simp at hr
  · rintro ⟨k, hp, ha⟩
    exact .answered hp ha

theorem value_scan_eq_match_iff {range : CodeRange} :
    (chain.scan pc).run.value = .ok (some range) ↔ chain.FirstMatch pc range := by
  simp only [FirstMatch, ← answerAt_eq_none_iff, ← answerAt_eq_match_iff]
  exact value_scan_eq_ofAnswer_iff (r := .ok (some range))

theorem value_scan_eq_end_iff :
    (chain.scan pc).run.value = .ok none ↔
      ∃ k, (∀ j < k, chain.PassesAt pc j) ∧ chain.place k = .ok none := by
  simp only [← answerAt_eq_none_iff, ← @answerAt_eq_end_iff chain pc]
  exact value_scan_eq_ofAnswer_iff (r := .ok none)

theorem value_scan_eq_failed_iff {e : AccessError} :
    (chain.scan pc).run.value = .error (.failed e) ↔
      ∃ k, (∀ j < k, chain.PassesAt pc j) ∧ chain.FailsAt k e := by
  simp only [← answerAt_eq_none_iff]
  refine (value_scan_eq_ofAnswer_iff (r := .error e)).trans (exists_congr fun k => ?_)
  exact and_congr_right answerAt_eq_error_iff

theorem value_scan_eq_endless_iff :
    (chain.scan pc).run.value = .error .endless ↔ ∀ k, chain.PassesAt pc k := by
  simp only [← answerAt_eq_none_iff]
  rw [value_scan_eq_iff]
  constructor
  · intro h
    generalize hr : (.error .endless : Except Halt (Option CodeRange)) = r' at h
    cases h with
    | @answered k a => cases a <;> simp at hr
    | endless hp => exact hp
  · exact .endless

theorem fst_resolve (chain : FunctionChain) (pc key : Addr) (s : Session) :
    ((chain.resolve pc key).on s).value.1 = (chain.scan pc).run.value := by
  rw [value_resolve]
  rcases (chain.scan pc).run.value with h | _ | range <;> rfl

theorem snd_resolve_of_ne {key : Addr} {s : Session}
    (h : ∀ range, (chain.scan pc).run.value ≠ .ok (some range)) :
    ((chain.resolve pc key).on s).value.2 = s := by
  rw [value_resolve]
  rcases hv : (chain.scan pc).run.value with e | _ | range
  · rfl
  · rfl
  · exact absurd hv (h range)

/-- A search that comes to a match at the place `k` asks for the nodes up to `k` and for no other. -/
theorem scanFrom_congr {other : FunctionChain} {k : Nat} {range : CodeRange}
    (hmatch : chain.MatchesAt pc k range)
    (hother : ∀ j ≤ k, ∀ addr, chain.place j = .ok (some addr) → other.node addr = chain.node addr)
    {room i : Nat} {seen : List Addr} {start : Option Addr} (hi : i ≤ k) (hstart : chain.place i = .ok start) :
    other.scanFrom pc room seen start = chain.scanFrom pc room seen start := by
  induction room generalizing i seen start with
  | zero => cases start <;> rfl
  | succ room ih =>
    cases start with
    | none => rfl
    | some addr =>
      simp only [scanFrom, hother i hi addr hstart]
      split
      · rfl
      · refine Query.bind_congr_answer _ fun node hn => bind_congr fun _ => ?_
        obtain ⟨addr', node', hp, hn', hc, _⟩ := hmatch
        split
        · rfl
        · rename_i hr
          have hik : i ≠ k := by
            rintro rfl
            rw [hstart] at hp
            obtain rfl : addr = addr' := by simpa using hp
            rw [hn] at hn'
            obtain rfl : node = node' := by simpa using hn'
            exact hr (CodeRange.contains_iff.2 hc)
          exact ih (by omega) (place_succ hstart hn)

theorem scan_congr {other : FunctionChain} {k : Nat} {range : CodeRange}
    (hmatch : chain.MatchesAt pc k range) (hhead : other.head = chain.head)
    (hother : ∀ j ≤ k, ∀ addr, chain.place j = .ok (some addr) → other.node addr = chain.node addr) :
    other.scan pc = chain.scan pc := by
  simp only [scan, hhead]
  exact Query.bind_congr_answer _ fun head hh => scanFrom_congr hmatch hother (Nat.zero_le k) hh

/-- The search gives the first answer along the list, and none exactly when every place is passed. It binds the
key at a match and changes nothing else; nothing behind a match is asked for. -/
theorem resolve_eq_first_answer (chain : FunctionChain) (pc key : Addr) (s : Session) :
    let result := ((chain.resolve pc key).on s).value
    (∀ range, result.1 = .ok (some range) ↔
      ∃ k, (∀ j < k, chain.PassesAt pc j) ∧ chain.MatchesAt pc k range) ∧
    (result.1 = .ok none ↔ ∃ k, (∀ j < k, chain.PassesAt pc j) ∧ chain.place k = .ok none) ∧
    (∀ e, result.1 = .error (.failed e) ↔ ∃ k, (∀ j < k, chain.PassesAt pc j) ∧ chain.FailsAt k e) ∧
    (result.1 = .error .endless ↔ ∀ k, chain.PassesAt pc k) ∧
    (∀ range, result.1 = .ok (some range) → result.2.epoch = s.epoch ∧
      ∀ k, result.2.cache.lookup k = if k = key then some range else s.cache.lookup k) ∧
    ((∀ range, result.1 ≠ .ok (some range)) → result.2 = s) ∧
    ∀ k range, chain.MatchesAt pc k range → ∀ other : FunctionChain, other.head = chain.head →
      (∀ j ≤ k, ∀ addr, chain.place j = .ok (some addr) → other.node addr = chain.node addr) →
      (other.resolve pc key).on s = (chain.resolve pc key).on s := by
  dsimp only
  simp only [fst_resolve]
  refine ⟨fun range => value_scan_eq_match_iff, value_scan_eq_end_iff, fun e => value_scan_eq_failed_iff,
    value_scan_eq_endless_iff, fun range h => ?_, snd_resolve_of_ne, ?_⟩
  · rw [value_resolve, h]
    refine ⟨rfl, fun k => ?_⟩
    rw [FrameCache.lookup_insert]
    simp only [eq_comm]
  · intro k range hmatch other hhead hother
    simp only [resolve, scan_congr hmatch hhead hother]

end FunctionChain
end JitFrames
