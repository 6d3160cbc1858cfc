/-! Notifications about the target: it was stopped, or it was let run, in one of four ways. -/
namespace JitFrames

/-- A `registerWrite` resume stands for registers or memory written by the debugger, a `call` for a
function called in the target. -/
inductive ResumeKind
  | continue | step | registerWrite | call
  deriving DecidableEq, Repr

inductive TargetEvent
  | resumed (kind : ResumeKind)
  | stopped
  deriving DecidableEq, Repr

def ResumeKind.name : ResumeKind → String
  | .continue => "Continue"
  | .step => "Step"
  | .registerWrite => "RegisterWrite"
  | .call => "Call"

end JitFrames
