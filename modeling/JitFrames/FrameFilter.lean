import JitFrames.Config
import JitFrames.FrameCache
import JitFrames.Target

/-! The display of frames. A frame whose frame pointer is in the cache is shown under the label of its
range; every other frame is shown as it is. The filter only reads what unwinding has left in the cache. -/
namespace JitFrames

inductive ShownFrame (F : Type)
  | plain (base : F)
  | jit (base : F) (range : CodeRange)
  deriving DecidableEq, Repr

namespace ShownFrame

variable {F : Type}

def base : ShownFrame F → F
  | .plain base | .jit base _ => base

def range? : ShownFrame F → Option CodeRange
  | .plain _ => none
  | .jit _ range => some range

/-- Registers and memory are those of the base; the label stands in for the function's name. -/
instance [FrameView F] : FrameView (ShownFrame F) where
  registers f := FrameView.registers f.base
  memory f := FrameView.memory f.base
  function
    | .plain base => FrameView.function base
    | .jit _ range => some range.label

end ShownFrame

structure FrameFilter where
  name : String
  priority : Int
  convention : Convention
  enabled : Bool := true
  deriving DecidableEq, Repr

namespace FrameFilter

def ofConfig (c : Config) : FrameFilter where
  name := c.name
  priority := c.priority
  convention := c.convention

variable {F : Type} [FrameView F]

/-- Looks the frame pointer up, as the unwinder binds it. -/
def decorate (filter : FrameFilter) (cache : FrameCache) (frame : F) : Query (ShownFrame F) := do
  if !filter.enabled then return .plain frame
  let fp ← FrameView.readRegister frame filter.convention.fpRegister
  return match cache.lookup fp with
    | some range => .jit frame range
    | none => .plain frame

/-- One question for each frame of a backtrace; a question that is not run reads nothing. -/
def decorateAll (filter : FrameFilter) (cache : FrameCache) (frames : List F) :
    List (Query (ShownFrame F)) := frames.map (filter.decorate cache)

end FrameFilter
end JitFrames
