/-! Counts in decimal: an optional single plus sign, then digits, with a value of at most 64 bits. -/
namespace JitFrames.Count

def digits (s : String) : List Char :=
  match s.toList with
  | '+' :: cs => cs
  | cs => cs

def value (cs : List Char) : Nat :=
  cs.foldl (fun n c => 10 * n + (c.toNat - '0'.toNat)) 0

/-- A lone sign, any other character and a value past 64 bits are refused; leading zeros are not. -/
def read? (s : String) : Option Nat :=
  let cs := digits s
  if cs ≠ [] ∧ cs.all Char.isDigit ∧ value cs < UInt64.size then some (value cs) else none

end JitFrames.Count
