import JitFrames.Step
import JitFrames.Target

/-! The host's list of compiled functions: a head and, at each node's address, the bounds of a function and the
next node. The list may run in a circle, so the search remembers the nodes it has passed. -/
namespace JitFrames

structure FunctionNode where
  entryPoint : Addr
  codeEnd : Addr
  next : Option Addr
  deriving DecidableEq, Repr

def FunctionNode.range (n : FunctionNode) : CodeRange := ⟨n.entryPoint, n.codeEnd⟩

structure FunctionChain where
  head : Query (Option Addr)
  node : Addr → Query FunctionNode

namespace FunctionChain

/-- Follows the list from a node to the first function that contains `pc`. Room counts the addresses not passed
yet, so without room the node is one met again. -/
def scanFrom (chain : FunctionChain) (pc : Addr) : Nat → List Addr → Option Addr → Search (Option CodeRange)
  | _, _, none => return none
  | 0, _, some _ => throw .endless
  | room + 1, seen, some addr =>
    if addr ∈ seen then throw .endless
    else do
      let node ← chain.node addr
      log (.nodeRead addr node.entryPoint node.codeEnd)
      if node.range.contains pc then return some node.range
      scanFrom chain pc room (addr :: seen) node.next

def scan (chain : FunctionChain) (pc : Addr) : Search (Option CodeRange) := do
  chain.scanFrom pc UInt64.size [] (← chain.head)

/-- The range of the function that `pc` lies in, bound to the frame key if there is one. -/
def resolve (chain : FunctionChain) (pc key : Addr) : Step (Option CodeRange) := do
  log (.resolving pc key)
  let found ← chain.scan pc
  if let some range := found then
    log (.classified range)
    Step.update (·.classify key range)
  return found

@[simp] theorem scanFrom_none (chain : FunctionChain) (pc : Addr) (room : Nat) (seen : List Addr) :
    chain.scanFrom pc room seen none = pure none := by cases room <;> rfl

theorem scanFrom_of_mem (chain : FunctionChain) (pc : Addr) (room : Nat) {seen : List Addr} {addr : Addr}
    (h : addr ∈ seen) : chain.scanFrom pc room seen (some addr) = throw .endless := by
  cases room <;> simp [scanFrom, h]

theorem value_scanFrom_of_notMem (chain : FunctionChain) (pc : Addr) (room : Nat) {seen : List Addr}
    {addr : Addr} (h : addr ∉ seen) :
    (chain.scanFrom pc (room + 1) seen (some addr)).run.value =
      match (chain.node addr).run.value with
      | .error e => .error (.failed e)
      | .ok node =>
        if node.range.contains pc then .ok (some node.range)
        else (chain.scanFrom pc room (addr :: seen) node.next).run.value := by
  simp only [scanFrom, h, if_false, ExceptT.run_bind, Traced.value_bind, run_liftQuery]
  cases hn : (chain.node addr).run.value with
  | error e => simp [hn]
  | ok node =>
    simp only [Traced.value_map, hn, Halt.ofAnswer_ok, run_searchTraced, Traced.value_bind]
    split <;> simp_all

theorem value_scan (chain : FunctionChain) (pc : Addr) :
    (chain.scan pc).run.value =
      match chain.head.run.value with
      | .error e => .error (.failed e)
      | .ok head => (chain.scanFrom pc UInt64.size [] head).run.value := by
  simp only [scan, ExceptT.run_bind, run_liftQuery, Traced.value_bind, Traced.value_map]
  cases chain.head.run.value <;> rfl

theorem value_resolve (chain : FunctionChain) (pc key : Addr) (s : Session) :
    ((chain.resolve pc key).on s).value =
      match (chain.scan pc).run.value with
      | .ok (some range) => (.ok (some range), { s with cache := s.cache.insert key range })
      | .ok none => (.ok none, s)
      | .error h => (.error h, s) := by
  simp only [resolve, Step.on_bind, Step.on_traced, Step.on_search, Traced.value_bind, Traced.value_map,
    Step.resume_ok]
  rcases (chain.scan pc).run.value with h | _ | range <;> simp [Except.map]

end FunctionChain
end JitFrames
