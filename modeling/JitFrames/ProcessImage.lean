import JitFrames.LittleEndian
import JitFrames.Target

/-! A live process as a target: mapped bytes and the dynamic symbols of its globals. A read copies the longest
mapped run of the bytes asked for, so it fails as a whole at an unmapped first byte and falls short at a later
one. -/
namespace JitFrames

structure Global where
  name : String
  addr : Addr
  size : Nat
  deriving DecidableEq, Repr

structure ProcessImage where
  bytes : Addr → Option UInt8 := fun _ => none
  globals : List Global := []

namespace ProcessImage

def map (p : ProcessImage) (start : Addr) (size : Nat) : ProcessImage :=
  { p with bytes := fun b => if (b - start).toNat < size then some 0 else p.bytes b }

def declare (p : ProcessImage) (g : Global) : ProcessImage :=
  { p.map g.addr g.size with globals := p.globals ++ [g] }

def write (p : ProcessImage) (addr : Addr) (word : UInt64) : ProcessImage :=
  { p with bytes := fun b =>
      let place := (b - addr).toNat
      if place < 8 then (p.bytes b).map fun _ => LittleEndian.byteAt word.toNat place else p.bytes b }

/-- The longest mapped run of at most that many bytes. -/
def mappedRun (p : ProcessImage) (addr : Addr) : Nat → List UInt8
  | 0 => []
  | n + 1 =>
    match p.bytes addr with
    | none => []
    | some b => b :: p.mappedRun (addr + 1) n

def badAddress : String := "Bad address"

def shortRead (copied : Nat) : String := "short read of " ++ toString copied ++ " bytes"

/-- Only words of four and eight bytes can be read, wherever they are. -/
def word (p : ProcessImage) (addr : Addr) (width : Nat) : Except AccessError UInt64 :=
  if isWordWidth width then
    let run := p.mappedRun addr width
    if run.length = width then .ok (.ofNat (LittleEndian.value run))
    else if run = [] then .error (.memory addr width badAddress)
    else .error (.memory addr width (shortRead run.length))
  else .error (.pointerWidth width)

def memory (p : ProcessImage) : Memory where
  word := p.word
  remarks addr width :=
    if isWordWidth width ∧ p.bytes addr = none then [.readRefused addr badAddress] else []

/-- No symbol has a name with a null character. -/
def isSymbolName (name : String) : Bool := !name.toList.contains '\x00'

/-- A symbol at null is as good as none. -/
def findGlobal (p : ProcessImage) (name : String) : Option Addr :=
  if isSymbolName name then ((p.globals.find? (·.name == name)).map (·.addr)).bind Addr.nonNull? else none

def symbols (p : ProcessImage) : Symbols where
  find := p.findGlobal
  remarks name :=
    if isSymbolName name ∧ p.findGlobal name = none then [.symbolMissing name] else []

def symbolAt (p : ProcessImage) (addr : Addr) : Option String :=
  (p.globals.find? fun g => (addr - g.addr).toNat < g.size).map (·.name)

def target (p : ProcessImage) : Target where
  memory := p.memory
  symbols := p.symbols

theorem length_mappedRun_le (p : ProcessImage) (addr : Addr) (n : Nat) :
    (p.mappedRun addr n).length ≤ n := by
  induction n generalizing addr with
  | zero => simp [mappedRun]
  | succ n ih => cases h : p.bytes addr <;> simp [mappedRun, h, ih]

theorem word_of_unsupported (p : ProcessImage) {width : Nat} (h : isWordWidth width = false) (addr : Addr) :
    p.word addr width = .error (.pointerWidth width) := by simp [word, h]

end ProcessImage
end JitFrames
