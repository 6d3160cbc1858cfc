/-! Numbers as bytes, least significant first. The main statement is that a number is read back from its
bytes, up to the bits that they can hold. -/
namespace JitFrames.LittleEndian

/-- The byte of `n` at place `i`. -/
def byteAt (n i : Nat) : UInt8 := .ofNat (n >>> (8 * i))

def value : List UInt8 → Nat
  | [] => 0
  | b :: bs => b.toNat + 256 * value bs

theorem value_lt (bs : List UInt8) : value bs < 1 <<< (8 * bs.length) := by
  induction bs with
  | nil => decide
  | cons b bs ih =>
    have hb : b.toNat < 256 := UInt8.toNat_lt b
    rw [Nat.one_shiftLeft] at ih ⊢
    rw [value, List.length_cons, Nat.mul_add, Nat.pow_add]
    omega

theorem value_append (as bs : List UInt8) :
    value (as ++ bs) = value as + value bs <<< (8 * as.length) := by
  induction as with
  | nil => simp [value]
  | cons a as ih =>
    rw [List.cons_append, value, value, ih, List.length_cons, Nat.shiftLeft_eq, Nat.shiftLeft_eq,
      Nat.mul_add 8, Nat.pow_add, Nat.mul_add, ← Nat.mul_assoc (value bs)]
    omega

theorem toNat_byteAt (n i : Nat) : (byteAt n i).toNat = n >>> (8 * i) % 256 := by simp [byteAt]

theorem value_map_byteAt (n width : Nat) :
    value ((List.range width).map (byteAt n)) = n % 1 <<< (8 * width) := by
  induction width with
  | zero => simp [value, Nat.mod_one]
  | succ k ih =>
    have hs : 1 <<< (8 * (k + 1)) = 2 ^ (8 * k) * 256 := by
      rw [Nat.one_shiftLeft, Nat.mul_add, Nat.pow_add]
    rw [List.range_succ, List.map_append, value_append, ih, hs, Nat.mod_mul, Nat.one_shiftLeft]
    simp only [List.map_cons, List.map_nil, value, toNat_byteAt, List.length_map, List.length_range,
      Nat.shiftLeft_eq, Nat.shiftRight_eq_div_pow, Nat.mul_comm, Nat.zero_mul, Nat.add_zero]

end JitFrames.LittleEndian
