import JitFrames.Config
import JitFrames.FunctionChain

/-! The function list as it lies in the target's memory: the root symbol points at the context, the context
at the first node. A host that has no context yet has no functions, which is no failure. -/
namespace JitFrames

structure Registry where
  target : Target
  layout : ListLayout
  pointerWidth : Nat

namespace Registry

def readPointer (r : Registry) (addr : Addr) : Query Addr := r.target.memory.read addr r.pointerWidth

/-- The context that the word at the root symbol points at; a word that cannot be read counts as no
context. -/
def context (r : Registry) : Query (Option Addr) := do
  let some symbol ← r.target.symbols.lookup r.layout.rootSymbol
    | log (.rootMissing r.layout.rootSymbol)
      return none
  match ← (r.readPointer symbol).attempt with
  | .ok context =>
    if context.isNull then log .contextNull
    return context.nonNull?
  | .error error =>
    log (.rootUnreadable r.layout.rootSymbol error)
    return none

def head (r : Registry) : Query (Option Addr) := do
  let some context ← r.context | return none
  let head ← r.readPointer (context.offset r.layout.functionsOffset)
  return head.nonNull?

def node (r : Registry) (addr : Addr) : Query FunctionNode := do
  let entryPoint ← r.readPointer (addr.offset r.layout.entryPointOffset)
  let codeEnd ← r.readPointer (addr.offset r.layout.codeEndOffset)
  let next ← r.readPointer (addr.offset r.layout.nextOffset)
  return { entryPoint, codeEnd, next := next.nonNull? }

def chain (r : Registry) : FunctionChain where
  head := r.head
  node := r.node

@[simp] theorem value_readPointer (r : Registry) (addr : Addr) :
    (r.readPointer addr).run.value = r.target.memory.word addr r.pointerWidth := rfl

theorem value_context (r : Registry) : r.context.run.value =
    match r.target.symbols.find r.layout.rootSymbol with
    | none => .ok none
    | some symbol =>
      match r.target.memory.word symbol r.pointerWidth with
      | .error _ => .ok none
      | .ok context => .ok (Addr.nonNull? context) := by
  rw [context, Query.value_bind, Symbols.value_lookup]
  cases r.target.symbols.find r.layout.rootSymbol with
  | none => rfl
  | some symbol =>
    change (((r.readPointer symbol).attempt >>= _ : Query (Option Addr))).run.value = _
    simp only [Query.value_bind, Query.run_attempt, Traced.value_map, value_readPointer]
    cases r.target.memory.word symbol r.pointerWidth with
    | error e => rfl
    | ok context =>
      change (if Addr.isNull context then _ else _ : Query (Option Addr)).run.value = _
      split <;> rfl

theorem value_head (r : Registry) : r.head.run.value = do
    let some context ← r.context.run.value | return none
    let head ← r.target.memory.word (Addr.offset context r.layout.functionsOffset) r.pointerWidth
    return Addr.nonNull? head := by
  rw [head, Query.value_bind]
  refine bind_congr fun context => ?_
  cases context with
  | none => rfl
  | some context => exact Query.value_bind _ _

theorem value_node (r : Registry) (addr : Addr) : (r.node addr).run.value = do
    let entryPoint ← r.target.memory.word (addr.offset r.layout.entryPointOffset) r.pointerWidth
    let codeEnd ← r.target.memory.word (addr.offset r.layout.codeEndOffset) r.pointerWidth
    let next ← r.target.memory.word (addr.offset r.layout.nextOffset) r.pointerWidth
    return { entryPoint, codeEnd, next := Addr.nonNull? next } := by
  simp only [node, Query.value_bind, value_readPointer]
  rfl

end Registry
end JitFrames
