import Mathlib.Data.List.Induction
import JitFrames.FrameFilter

/-! The label of a range stands for the range. A label holds the shortest numerals of the two bounds, and
reading it gives the range back. The other texts of an address hold the same numeral behind a marker, zeros or
blanks. -/
namespace JitFrames

namespace Hex

/-- A numeral of the number, and no other numeral of it is shorter. -/
def IsShortest (cs : List Char) (n : Nat) : Prop :=
  read? cs = some n ∧ ∀ ds, read? ds = some n → cs.length ≤ ds.length

theorem toNat_of_digit? {c : Char} {d : Nat} (h : digit? c = some d) :
    d < 16 ∧ c.toNat = if d < 10 then 48 + d else 87 + d := by
  have hle : ∀ a b : Char, a ≤ b ↔ a.toNat ≤ b.toNat := fun _ _ => UInt32.le_iff_toNat_le
  simp only [digit?, hle] at h
  have h0 : '0'.toNat = 48 := rfl
  have h9 : '9'.toNat = 57 := rfl
  have ha : 'a'.toNat = 97 := rfl
  have hf : 'f'.toNat = 102 := rfl
  simp only [h0, h9, ha, hf] at h
  split at h
  · have hd : c.toNat - 48 = d := Option.some.inj h
    have hd10 : d < 10 := by omega
    simp only [hd10, if_true]
    omega
  · split at h
    · have hd : c.toNat - 97 + 10 = d := Option.some.inj h
      have hd10 : ¬ d < 10 := by omega
      simp only [hd10, if_false]
      omega
    · simp at h

theorem digit?_lt_iff {c d : Char} {m n : Nat} (hc : digit? c = some m) (hd : digit? d = some n) :
    c < d ↔ m < n := by
  obtain ⟨hm, hcm⟩ := toNat_of_digit? hc
  obtain ⟨hn, hdn⟩ := toNat_of_digit? hd
  rw [Char.lt_def, UInt32.lt_iff_toNat_lt]
  change c.toNat < d.toNat ↔ m < n
  split at hcm <;> split at hdn <;> omega

theorem digit?_inj {c d : Char} {n : Nat} (hc : digit? c = some n) (hd : digit? d = some n) : c = d := by
  have hcn := (toNat_of_digit? hc).2
  have hdn := (toNat_of_digit? hd).2
  exact Char.toNat_inj.1 (hcn.trans hdn.symm)

theorem readFrom_concat {n : Nat} {cs : List Char} {c : Char} :
    readFrom n (cs ++ [c]) = (readFrom n cs).bind fun m => (digit? c).map (16 * m + ·) := by
  rw [readFrom_append]
  congr
  funext m
  cases hc : digit? c <;> simp [readFrom, hc]

/-- The numerals of a number are the shortest one, behind any number of zeros. -/
theorem exists_zeros_of_readFrom {cs : List Char} {n : Nat} (hne : cs ≠ []) (h : readFrom 0 cs = some n) :
    ∃ zeros, cs = List.replicate zeros '0' ++ digits n := by
  induction cs using List.reverseRecOn generalizing n with
  | nil => simp at hne
  | append_singleton cs c ih =>
    rw [readFrom_concat] at h
    obtain ⟨m, hm, hn⟩ := Option.bind_eq_some_iff.1 h
    obtain ⟨d, hd, rfl⟩ := Option.map_eq_some_iff.1 hn
    have hlt : d < 16 := (toNat_of_digit? hd).1
    obtain rfl : c = d.digitChar := digit?_inj hd (digit?_digitChar hlt)
    have hsmall : digits (16 * 0 + d) = [d.digitChar] := by
      rw [Nat.mul_zero, Nat.zero_add, digits, Nat.toDigits_of_lt_base hlt]
    by_cases hcs : cs = []
    · subst hcs
      obtain rfl : 0 = m := Option.some.inj hm
      exact ⟨0, by simpa using hsmall.symm⟩
    · obtain ⟨zeros, rfl⟩ := ih hcs hm
      by_cases hz : m = 0
      · -- The zero in front is a numeral of its own, and no digit of the longer one.
        subst hz
        rw [hsmall]
        exact ⟨zeros + 1, by simp [digits, List.replicate_succ']⟩
      · have hlarge : digits (16 * m + d) = digits m ++ [d.digitChar] := by
          have hdiv : (16 * m + d) / 16 = m := by omega
          have hmod : (16 * m + d) % 16 = d := by omega
          rw [digits, Nat.toDigits_of_base_le (by decide) (by omega), hdiv, hmod, digits]
        exact ⟨zeros, by rw [hlarge, List.append_assoc]⟩

theorem isShortest_digits (n : Nat) : IsShortest (digits n) n := by
  refine ⟨read?_digits n, ?_⟩
  intro ds h
  have hne : ds ≠ [] := by
    rintro rfl
    simp [read?] at h
  obtain ⟨zeros, rfl⟩ := exists_zeros_of_readFrom hne (read?_of_ne_nil hne ▸ h)
  simp

theorem lt_of_readFrom {a b m n : Nat} {cs ds : List Char} (hlen : cs.length = ds.length) (hab : a < b)
    (hc : readFrom a cs = some m) (hd : readFrom b ds = some n) : m < n := by
  induction cs generalizing a b ds with
  | nil =>
    cases ds with
    | nil => simp_all [readFrom]
    | cons d ds => simp at hlen
  | cons c cs ih =>
    cases ds with
    | nil => simp at hlen
    | cons d ds =>
      obtain ⟨x, hx, hcs⟩ := Option.bind_eq_some_iff.1 hc
      obtain ⟨y, -, hds⟩ := Option.bind_eq_some_iff.1 hd
      have hx16 : x < 16 := (toNat_of_digit? hx).1
      exact ih (by simpa using hlen) (by omega) hcs hds

theorem lt_iff_of_readFrom {a m n : Nat} {cs ds : List Char} (hlen : cs.length = ds.length)
    (hc : readFrom a cs = some m) (hd : readFrom a ds = some n) : cs < ds ↔ m < n := by
  induction cs generalizing a ds with
  | nil =>
    cases ds with
    | nil => simp_all [readFrom]
    | cons d ds => simp at hlen
  | cons c cs ih =>
    cases ds with
    | nil => simp at hlen
    | cons d ds =>
      obtain ⟨x, hx, hcs⟩ := Option.bind_eq_some_iff.1 hc
      obtain ⟨y, hy, hds⟩ := Option.bind_eq_some_iff.1 hd
      have hl : cs.length = ds.length := by simpa using hlen
      rw [List.cons_lt_cons_iff, digit?_lt_iff hx hy]
      obtain hlt | rfl | hgt := Nat.lt_trichotomy x y
      · have hmn : m < n := lt_of_readFrom hl (by omega) hcs hds
        simp [hlt, hmn]
      · obtain rfl : c = d := digit?_inj hx hy
        simp [ih hl hcs hds]
      · have hnm : n < m := lt_of_readFrom hl.symm (by omega) hds hcs
        have hcd : c ≠ d := by
          rintro rfl
          have hxy : x = y := Option.some.inj (hx.symm.trans hy)
          omega
        simp [hcd]
        omega

end Hex

namespace Addr

/-- Reads a numeral without a marker, behind any number of blanks. -/
def ofNumeral? (s : String) : Option Addr :=
  (Hex.readAligned? s.toList).bind fun n => if n < UInt64.size then some (.ofNat n) else none

theorem ofNumeral?_aligned (a : Addr) : ofNumeral? a.aligned = some a := by
  simp [ofNumeral?, UInt64.toNat_lt_size a]

theorem ofNumeral?_hex (a : Addr) : ofNumeral? a.hex = some a := by
  have hread : Hex.readAligned? (Hex.digits a.toNat) = some a.toNat := by
    rw [Hex.readAligned?, Hex.dropWhile_blank_digits, Hex.read?_digits]
  simp [ofNumeral?, hex, hread, UInt64.toNat_lt_size a]

theorem padded_lt_iff {a b : Addr} : a.padded < b.padded ↔ a < b := by
  have hread : ∀ c : Addr, Hex.readFrom 0 (Hex.zeroPadded 16 c.toNat) = some c.toNat := by
    intro c
    simp only [Hex.zeroPadded, List.leftpad, Hex.readFrom_zero_replicate, Hex.readFrom_digits]
  have hlen : ∀ c : Addr, (Hex.zeroPadded 16 c.toNat).length = 16 :=
    fun c => Hex.length_zeroPadded (Nat.le_refl 16) (UInt64.toNat_lt_size c)
  have hlt := Hex.lt_iff_of_readFrom ((hlen a).trans (hlen b).symm) (hread a) (hread b)
  change a.padded.toList < b.padded.toList ↔ a < b
  rw [toList_padded, toList_padded, List.cons_lt_cons_self, List.cons_lt_cons_self, hlt, UInt64.lt_iff_toNat_lt]

theorem padded_inj {a b : Addr} : a.padded = b.padded ↔ a = b := by
  constructor
  · intro h
    have hread : ofText? a.padded = ofText? b.padded := congrArg ofText? h
    simpa using hread
  · exact congrArg padded

theorem texts_eq (a : Addr) :
    let numeral := Hex.digits a.toNat
    a.hex.toList = numeral ∧ a.text.toList = "0x".toList ++ numeral ∧
      a.padded.toList = "0x".toList ++ List.replicate (16 - numeral.length) '0' ++ numeral ∧
      a.aligned.toList = List.replicate (20 - numeral.length) ' ' ++ numeral := by
  simp [hex, Hex.zeroPadded, Hex.rightAligned, List.leftpad]

end Addr

namespace CodeRange

/-- A label is made of the shortest numerals of its bounds and is read back as its range, so it stands for no
other range. Padded texts compare as the addresses do. -/
theorem label_names_range :
    (∀ r : CodeRange, ∃ start stop,
      Hex.IsShortest start r.start.toNat ∧ Hex.IsShortest stop r.stop.toNat ∧
        r.label.toList = "JIT[0x".toList ++ start ++ ", 0x".toList ++ stop ++ "]".toList ∧
        ofLabel? r.label = some r) ∧
    (∀ r q : CodeRange, r.label = q.label ↔ r = q) ∧
    (∀ {F : Type} [FrameView F] (f g : F) (r q : CodeRange),
      FrameView.function (ShownFrame.jit f r) = FrameView.function (ShownFrame.jit g q) ↔ r = q) ∧
    (∀ a : Addr, ∃ numeral, Hex.IsShortest numeral a.toNat ∧
      a.text.toList = "0x".toList ++ numeral ∧ Addr.ofText? a.text = some a ∧
      a.hex.toList = numeral ∧ Addr.ofNumeral? a.hex = some a ∧
      a.padded.toList = "0x".toList ++ List.replicate (16 - numeral.length) '0' ++ numeral ∧
        Addr.ofText? a.padded = some a ∧ a.padded.length = 18 ∧
      a.aligned.toList = List.replicate (20 - numeral.length) ' ' ++ numeral ∧
        Addr.ofNumeral? a.aligned = some a ∧ a.aligned.length = 20) ∧
    ∀ a b : Addr, (a.padded < b.padded ↔ a < b) ∧ (a.padded = b.padded ↔ a = b) := by
  refine ⟨fun r => ?_, fun r q => label_inj, fun f g r q => ?_, fun a => ?_,
    fun a b => ⟨Addr.padded_lt_iff, Addr.padded_inj⟩⟩
  · exact ⟨_, _, Hex.isShortest_digits _, Hex.isShortest_digits _, by simp [toList_label], ofLabel?_label r⟩
  · have hname : some r.label = some q.label ↔ r = q := Option.some_inj.trans label_inj
    exact hname
  · obtain ⟨hhex, htext, hpadded, haligned⟩ := a.texts_eq
    have hlength : a.padded.length = 18 := String.length_toList.symm.trans a.length_padded
    have hwidth : a.aligned.length = 20 := String.length_toList.symm.trans a.length_aligned
    exact ⟨_, Hex.isShortest_digits _, htext, Addr.ofText?_text a, hhex, a.ofNumeral?_hex, hpadded,
      Addr.ofText?_padded a, hlength, haligned, a.ofNumeral?_aligned, hwidth⟩

end CodeRange
end JitFrames
