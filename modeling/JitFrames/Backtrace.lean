import JitFrames.Unwinder

/-! A walk through consecutive frames of compiled code: the unwind step repeated on each caller it finds. -/
namespace JitFrames

structure RegisterSnapshot where
  pcRegister : String
  fpRegister : String
  pc : Addr
  fp : Addr
  deriving DecidableEq, Repr

/-- Where both registers have one name, it reads the program counter. -/
def RegisterSnapshot.registers (f : RegisterSnapshot) : Registers := fun name =>
  if name = f.pcRegister then .ok f.pc
  else if name = f.fpRegister then .ok f.fp
  else .error (.register name "not tracked while walking")

namespace Unwinder

def snapshot (u : Unwinder) (pc fp : Addr) : RegisterSnapshot where
  pcRegister := u.convention.pcRegister
  fpRegister := u.convention.fpRegister
  pc := pc
  fp := fp

/-- The callers from a frame on, innermost first, at most `limit` of them. A null frame pointer ends the
chain only behind a caller, not at the start. -/
def callersFrom (u : Unwinder) (target : Target) : Nat → Addr → Addr → Step (List FrameIdentity)
  | 0, _, _ => return []
  | limit + 1, pc, fp => do
    let some caller ← u.unwind target (u.snapshot pc fp).registers | return []
    let id := caller.id
    log (.callerFound id.programCounter id.stackPointer)
    if id.stackPointer.isNull then return [id]
    return id :: (← callersFrom u target limit id.programCounter id.stackPointer)

def walk (u : Unwinder) (target : Target) (pc fp : Addr) (limit : Nat) : Step (List FrameIdentity) := do
  log (.walking pc fp limit)
  let callers ← u.callersFrom target limit pc fp
  log (.walkDone callers.length)
  return callers

end Unwinder
end JitFrames
