import JitFrames.Addr

/-! The ways in which asking the target for a value can fail, each with the message that reports it.
A frame that belongs to no compiled function is no failure. -/
namespace JitFrames

inductive AccessError
  | register (name reason : String)
  | memory (addr : Addr) (width : Nat) (reason : String)
  | pointerWidth (width : Nat)
  deriving DecidableEq, Repr

def AccessError.message : AccessError → String
  | .register name reason => "failed to read register `" ++ name ++ "`: " ++ reason
  | .memory addr width reason =>
    "failed to read " ++ toString width ++ " bytes at " ++ addr.text ++ ": " ++ reason
  | .pointerWidth width => "unsupported pointer width: " ++ toString width

end JitFrames
