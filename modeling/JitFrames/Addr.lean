import JitFrames.Text.Hex

/-! Addresses of the target: plain 64-bit numbers, with the texts they are shown in. -/
namespace JitFrames

abbrev Addr := UInt64

namespace Addr

def null : Addr := 0

def isNull (a : Addr) : Bool := a == null

/-- Wraps around at the end of the address space. -/
def offset (a : Addr) (distance : UInt64) : Addr := a + distance

/-- The address, unless it is null. -/
def nonNull? (a : Addr) : Option Addr := if a.isNull then none else some a

def hex (a : Addr) : String := String.ofList (Hex.digits a.toNat)

def text (a : Addr) : String := "0x" ++ a.hex

/-- Sixteen digits behind the marker. -/
def padded (a : Addr) : String := "0x" ++ String.ofList (Hex.zeroPadded 16 a.toNat)

/-- Twenty characters with blanks on the left, without the marker. -/
def aligned (a : Addr) : String := String.ofList (Hex.rightAligned 20 a.toNat)

/-- Reads back `text` and `padded`. -/
def ofText? (s : String) : Option Addr :=
  match s.toList with
  | '0' :: 'x' :: cs => (Hex.read? cs).bind fun n => if n < UInt64.size then some (.ofNat n) else none
  | _ => none

@[simp] theorem isNull_iff {a : Addr} : a.isNull = true ↔ a = 0 := by simp [isNull, null]

@[simp] theorem nonNull?_zero : nonNull? 0 = none := rfl

theorem nonNull?_of_ne_zero {a : Addr} (h : a ≠ 0) : a.nonNull? = some a := by
  simp [nonNull?, h]

theorem toNat_offset (a : Addr) (d : UInt64) : (a.offset d).toNat = (a.toNat + d.toNat) % UInt64.size :=
  UInt64.toNat_add a d

@[simp] theorem toList_text (a : Addr) : a.text.toList = '0' :: 'x' :: Hex.digits a.toNat := by
  simp [text, hex]

@[simp] theorem toList_padded (a : Addr) : a.padded.toList = '0' :: 'x' :: Hex.zeroPadded 16 a.toNat := by
  simp [padded]

@[simp] theorem ofText?_text (a : Addr) : ofText? a.text = some a := by
  simp [ofText?, UInt64.toNat_lt_size a]

@[simp] theorem ofText?_padded (a : Addr) : ofText? a.padded = some a := by
  simp [ofText?, UInt64.toNat_lt_size a]

theorem length_padded (a : Addr) : a.padded.toList.length = 18 := by
  rw [toList_padded]
  simp [@Hex.length_zeroPadded 16 _ (by decide) (UInt64.toNat_lt_size a)]

@[simp] theorem toList_aligned (a : Addr) : a.aligned.toList = Hex.rightAligned 20 a.toNat := by
  simp [aligned]

theorem length_aligned (a : Addr) : a.aligned.toList.length = 20 := by
  rw [toList_aligned]
  exact Hex.length_rightAligned (by decide) (UInt64.toNat_lt_size a)

end Addr
end JitFrames
