import JitFrames.Backtrace
import JitFrames.Block
import JitFrames.Installation
import JitFrames.Text.Count

/-! A demonstration on a process that plays the host: two compiled functions, a stack on which the outer one
has called the inner one, and a walk from the inner one's frame. Where the process has put these is left open. -/
namespace JitFrames.Demo

/-- Addresses in the process: the buffer that holds the two functions, inner then outer, the function that
called the outer one, and the data that lead to them. Further dynamic symbols come behind the root. -/
structure Places where
  code : Addr
  stack : Addr
  context : Addr
  innerNode : Addr
  outerNode : Addr
  rootVariable : Addr
  caller : Addr
  otherSymbols : List Global := []

namespace Places

variable (p : Places)

def codeBlock : Block where
  start := p.code
  size := 0x200

def rootBlock : Block where
  start := p.rootVariable
  size := 8
  contents := [(0, p.context)]

def contextBlock : Block where
  start := p.context
  size := 8
  contents := [(0, p.innerNode)]

def innerBlock : Block where
  start := p.innerNode
  size := 24
  contents := [(0, p.code), (8, p.code + 0x100), (16, p.outerNode)]

def outerBlock : Block where
  start := p.outerNode
  size := 24
  contents := [(0, p.code + 0x100), (8, p.code + 0x200), (16, Addr.null)]

/-- Outer's frame lies 64 bytes above inner's and ends the chain. -/
def stackBlock : Block where
  start := p.stack
  size := 0x100
  contents := [(0, p.stack + 64), (8, p.code + 0x140), (64, Addr.null), (72, p.caller)]

def blocks : List Block :=
  [p.codeBlock, p.rootBlock, p.contextBlock, p.innerBlock, p.outerBlock, p.stackBlock]

def rootSymbol : Global where
  name := "DEMO_JIT_CONTEXT"
  addr := p.rootVariable
  size := 8

def image : ProcessImage :=
  ((p.rootSymbol :: p.otherSymbols).foldl ProcessImage.declare {}).allot p.blocks

end Places

/-- A process gives out no byte twice. -/
structure Placement extends Places where
  proper : ∀ b ∈ toPlaces.blocks, b.Proper
  disjoint : toPlaces.blocks.Pairwise Block.Disjoint

def config : Config := { layout := { rootSymbol := "DEMO_JIT_CONTEXT" } }

def defaultLimit : Nat := 64

/-- The most callers to look for. A setting that is no count is ignored, and a variable that is no Unicode text is
none. -/
def limit (setting : Option String) : Nat := (setting.bind Count.read?).getD defaultLimit

structure LiveFrame where
  image : ProcessImage
  pc : Addr
  fp : Addr

instance : FrameView LiveFrame where
  registers f name :=
    if name = "rip" then .ok f.pc
    else if name = "rbp" then .ok f.fp
    else .error (.register name "not in demo frame")
  memory f := f.image.memory
  function f := f.image.symbolAt f.pc

def frameLine (index : Nat) (shown : Query (ShownFrame LiveFrame)) : Query String := do
  let frame ← shown
  let pc ← FrameView.readRegister frame "rip"
  return "#" ++ toString index ++ " " ++ Addr.padded pc ++ " in " ++
    (FrameView.function frame).getD "??"

/-- What is printed up to the first line that fails, and whether there is none such. -/
def printed : List (Query String) → Traced (List String × Bool)
  | [] => pure ([], true)
  | line :: rest => do
    match ← line.run with
    | .ok text =>
      let (lines, complete) ← printed rest
      return (text :: lines, complete)
    | .error _ => return ([], false)

structure Report where
  exitCode : Nat
  lines : List String
  deriving DecidableEq, Repr

namespace Placement

variable (p : Placement)

/-- Walks, prints the frames as it shows them, and lets the process run on. A failure ends with code 101. -/
def report (unwinder : Unwinder) (filter : FrameFilter) (limit : Nat) : Traced Report := do
  let start : FrameIdentity := { stackPointer := p.stack, programCounter := p.code + 0x10 }
  match ← (unwinder.walk p.image.target start.programCounter start.stackPointer limit).on {} with
  | (.error _, _) => return { exitCode := 101, lines := [] }
  | (.ok callers, session) =>
    let frames := (start :: callers).map fun id => LiveFrame.mk p.image id.programCounter id.stackPointer
    let (lines, complete) ← printed ((filter.decorateAll session.cache frames).mapIdx frameLine)
    if complete then
      let resumed ← session.notify (.resumed .continue)
      return { exitCode := 0, lines := lines ++ ["cached frames after resume: " ++ toString resumed.cache.size] }
    else return { exitCode := 101, lines }

def run (setting : Option String) : Report :=
  let installed := (({} : Installation).install config).value
  match installed.unwinders.find? config.name, installed.filters.find? config.name with
  | some unwinder, some filter => (p.report unwinder filter (limit setting)).value
  | _, _ => { exitCode := 101, lines := [] }

end Placement

def code : Addr := 0x7f41a2c06000

def placement : Placement where
  code := code
  stack := 0x7f41a2c0a000
  context := 0x7f41a2c0b010
  innerNode := 0x7f41a2c0b040
  outerNode := 0x7f41a2c0b080
  rootVariable := 0x55e3b8f4d0a8
  caller := 0x55e3b8e11d70
  proper := by decide
  disjoint := by decide

def run (setting : Option String) : Report := placement.run setting

end JitFrames.Demo
