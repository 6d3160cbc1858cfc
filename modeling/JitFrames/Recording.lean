import JitFrames.Target

/-! Recorded sources: a target or a frame written down beforehand, with the faults that reading it is to
run into. Words are recorded at exact addresses and have no bytes. -/
namespace JitFrames

structure RecordedMemory where
  words : List (Addr × UInt64) := []
  faults : List (Addr × String) := []

/-- A fault comes before an unsupported width, and that before a word that is not there. -/
def RecordedMemory.word (m : RecordedMemory) (addr : Addr) (width : Nat) : Except AccessError UInt64 :=
  match m.faults.lookup addr with
  | some reason => .error (.memory addr width reason)
  | none =>
    if isWordWidth width then
      match m.words.lookup addr with
      | none => .error (.memory addr width "not mapped")
      | some w => .ok (if width = 4 then w.toUInt32.toUInt64 else w)
    else .error (.pointerWidth width)

def RecordedMemory.memory (m : RecordedMemory) : Memory where
  word := m.word

structure RecordedTarget where
  memory : RecordedMemory := {}
  symbols : List (String × Addr) := []

def RecordedTarget.target (t : RecordedTarget) : Target where
  memory := t.memory.memory
  symbols := { find name := t.symbols.lookup name }

structure RecordedFrame where
  values : List (String × UInt64) := []
  faults : List (String × String) := []
  memory : RecordedMemory := {}
  function : Option String := none

def RecordedFrame.registers (f : RecordedFrame) : Registers := fun name =>
  match f.faults.lookup name with
  | some reason => .error (.register name reason)
  | none =>
    match f.values.lookup name with
    | some value => .ok value
    | none => .error (.register name "no such register")

instance : FrameView RecordedFrame where
  registers f := f.registers
  memory f := f.memory.memory
  function f := f.function

end JitFrames
