import JitFrames.Trace

/-! The sources that a debugger provides: the words and symbols of the target, and the registers of a frame.
Each is a function from questions to answers, together with the remarks it logs on a question. -/
namespace JitFrames

structure Memory where
  word : Addr → Nat → Except AccessError UInt64
  remarks : Addr → Nat → List Remark := fun _ _ => []

structure Symbols where
  find : String → Option Addr
  remarks : String → List Remark := fun _ => []

structure Target where
  memory : Memory
  symbols : Symbols

/-- Words have four or eight bytes. -/
def isWordWidth (width : Nat) : Bool := width == 4 || width == 8

theorem isWordWidth_iff {width : Nat} : isWordWidth width = true ↔ width = 4 ∨ width = 8 := by
  simp [isWordWidth]

abbrev Registers := String → Except AccessError UInt64

def Memory.read (m : Memory) (addr : Addr) (width : Nat) : Query UInt64 :=
  .ask (.word addr width) (m.word addr width) (m.remarks addr width)

def Symbols.lookup (s : Symbols) (name : String) : Query (Option Addr) :=
  .ask (.symbol name) (.ok (s.find name)) (s.remarks name)

def Registers.read (rs : Registers) (name : String) : Query UInt64 :=
  .ask (.register name) (rs name) []

@[simp] theorem Memory.value_read (m : Memory) (addr : Addr) (width : Nat) :
    (m.read addr width).run.value = m.word addr width := rfl

@[simp] theorem Symbols.value_lookup (s : Symbols) (name : String) :
    (s.lookup name).run.value = .ok (s.find name) := rfl

@[simp] theorem Registers.value_read (rs : Registers) (name : String) :
    (rs.read name).run.value = rs name := rfl

/-- A frame on its way to the display. -/
class FrameView (F : Type) where
  registers : F → Registers
  memory : F → Memory
  function : F → Option String

namespace FrameView

variable {F : Type} [FrameView F]

def readRegister (f : F) (name : String) : Query UInt64 := (registers f).read name

def readMemory (f : F) (addr : Addr) (width : Nat) : Query UInt64 :=
  .ask (.frameWord addr width) ((memory f).word addr width) ((memory f).remarks addr width)

end FrameView
end JitFrames
