import JitFrames.Addr

/-! What has to be known of a host before its frames can be unwound: the calling convention of the code,
the layout of the function list, and the name and priority under which the pieces are registered. -/
namespace JitFrames

/-- Where a frame keeps its caller's state relative to the frame pointer. Offsets wrap, so a slot below
the frame pointer has the offset's two's complement. -/
structure Convention where
  name : String
  pcRegister : String
  fpRegister : String
  savedFpOffset : UInt64
  savedPcOffset : UInt64
  pointerWidth : Nat
  deriving DecidableEq, Repr

/-- The frame pointer points at the caller's frame pointer, and the return address lies above it. -/
def Convention.x86_64 : Convention where
  name := "x86_64"
  pcRegister := "rip"
  fpRegister := "rbp"
  savedFpOffset := 0
  savedPcOffset := 8
  pointerWidth := 8

/-- The root symbol holds a pointer to the context, the context holds the head of the function list, and
every node of the list holds its function's bounds and the next node. -/
structure ListLayout where
  rootSymbol : String := "emacs_jit_context"
  functionsOffset : UInt64 := 0
  entryPointOffset : UInt64 := 0
  codeEndOffset : UInt64 := 8
  nextOffset : UInt64 := 16
  deriving DecidableEq, Repr

structure Config where
  name : String := "jitwind"
  priority : Int := 100
  convention : Convention := .x86_64
  layout : ListLayout := {}
  deriving DecidableEq, Repr

end JitFrames
