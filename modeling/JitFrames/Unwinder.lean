import JitFrames.CallerState
import JitFrames.Registry

/-! One unwind step. Compiled code keeps frame pointers, so once the program counter is known to lie in a
compiled function, the caller's frame pointer and the return address are the two words saved by the frame. -/
namespace JitFrames

structure Unwinder where
  config : Config
  enabled : Bool := true
  deriving DecidableEq, Repr

namespace Unwinder

def name (u : Unwinder) : String := u.config.name

def convention (u : Unwinder) : Convention := u.config.convention

/-- Unwinds a frame with a function list that is given apart from the memory the frame lives in. No caller
means that another unwinder should try. -/
def unwindWith (u : Unwinder) (chain : FunctionChain) (memory : Memory) (registers : Registers) :
    Step (Option CallerState) := do
  log (.unwinding u.name)
  if !u.enabled then return none
  let conv := u.convention
  let pc ← registers.read conv.pcRegister
  let fp ← registers.read conv.fpRegister
  log (.registersRead pc fp)
  let some range ← chain.resolve pc fp
    | log .declined
      return none
  let callerFp ← memory.read (Addr.offset fp conv.savedFpOffset) conv.pointerWidth
  let callerPc ← memory.read (Addr.offset fp conv.savedPcOffset) conv.pointerWidth
  log (.unwound range callerPc callerFp)
  let caller : CallerState := { id := { stackPointer := callerFp, programCounter := callerPc } }
  return some ((caller.save conv.pcRegister callerPc).save conv.fpRegister callerFp)

/-- The registry that the unwinder's configuration describes. -/
def registry (u : Unwinder) (target : Target) : Registry where
  target := target
  layout := u.config.layout
  pointerWidth := u.convention.pointerWidth

def unwind (u : Unwinder) (target : Target) (registers : Registers) : Step (Option CallerState) :=
  u.unwindWith (u.registry target).chain target.memory registers

end Unwinder
end JitFrames
