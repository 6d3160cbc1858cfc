import Mathlib.Algebra.BigOperators.Ring.Finset
import JitFrames.Proofs.StoredWords

/-! Reads of a process after any writes to it. A byte is what the last write that covers it has left there, and
how far a read gets depends on the mapped bytes alone, so writes may overlap in any way. -/
namespace JitFrames

theorem LittleEndian.value_eq_sum (bs : List UInt8) :
    value bs = ∑ i ∈ Finset.range bs.length, (bs.getD i 0).toNat * 256 ^ i := by
  induction bs with
  | nil => rfl
  | cons b bs ih =>
    have hrest : ∀ i, 256 * ((bs.getD i 0).toNat * 256 ^ i) = (bs.getD i 0).toNat * 256 ^ (i + 1) := by
      intro i
      rw [mul_left_comm, pow_succ']
    rw [value, ih, List.length_cons, Finset.sum_range_succ', Finset.mul_sum, add_comm]
    simp only [hrest, List.getD_cons_succ, List.getD_cons_zero, pow_zero, mul_one]

theorem add_ofNat_add (a : Addr) (m n : Nat) : a + UInt64.ofNat (m + n) = a + UInt64.ofNat m + UInt64.ofNat n := by
  rw [UInt64.ofNat_add, UInt64.add_assoc]

/-- The byte is one of the eight of the write. -/
def Covers (w : Addr × UInt64) (b : Addr) : Prop := (b - w.1).toNat < 8

instance (w : Addr × UInt64) (b : Addr) : Decidable (Covers w b) := inferInstanceAs (Decidable (_ < 8))

theorem covers_iff {w : Addr × UInt64} {b : Addr} : Covers w b ↔ ∃ i < 8, b = w.1 + UInt64.ofNat i := by
  constructor
  · intro h
    exact ⟨_, h, (add_ofNat_toNat_sub w.1 b).symm⟩
  · rintro ⟨i, hi, rfl⟩
    have hplace := toNat_add_sub_cancel w.1 (Nat.lt_trans hi (by decide))
    rwa [Covers, hplace]

theorem apart_of_not_covers {a : Addr} {w : Addr × UInt64} (h : ∀ i < 8, ¬ Covers w (a + UInt64.ofNat i)) :
    Apart 8 a w.1 := by
  intro i hi j hj he
  exact h i hi (covers_iff.2 ⟨j, hj, he⟩)

namespace ProcessImage

def writeAll (p : ProcessImage) (writes : List (Addr × UInt64)) : ProcessImage :=
  writes.foldl (fun p w => p.write w.1 w.2) p

/-- The byte that the last write has left there that covers it. -/
def latest (p : ProcessImage) (writes : List (Addr × UInt64)) (b : Addr) : Option UInt8 :=
  match writes.findRev? fun w => Covers w b with
  | some w => (p.bytes b).map fun _ => LittleEndian.byteAt w.2.toNat (b - w.1).toNat
  | none => p.bytes b

/-- These are the mapped bytes from the address on, all that are asked for or up to one that is not mapped. -/
structure LongestRun (p : ProcessImage) (addr : Addr) (n : Nat) (run : List UInt8) : Prop where
  length_le : run.length ≤ n
  mapped : ∀ i b, run[i]? = some b → p.bytes (addr + UInt64.ofNat i) = some b
  ends : run.length < n → p.bytes (addr + UInt64.ofNat run.length) = none

/-- The number that the bytes make up, least significant first. -/
def number (p : ProcessImage) (addr : Addr) (width : Nat) : Nat :=
  ∑ i ∈ Finset.range width, ((p.bytes (addr + UInt64.ofNat i)).getD 0).toNat * 256 ^ i

variable {p q : ProcessImage} {addr : Addr} {width : Nat}

theorem writeAll_eq_storeAll (p : ProcessImage) (writes : List (Addr × UInt64)) :
    p.writeAll writes = p.storeAll 8 writes := rfl

theorem bytes_write_of_covers {w : Addr × UInt64} {b : Addr} (h : Covers w b) :
    (p.write w.1 w.2).bytes b = (p.bytes b).map fun _ => LittleEndian.byteAt w.2.toNat (b - w.1).toNat := if_pos h

theorem bytes_write_of_not_covers {w : Addr × UInt64} {b : Addr} (h : ¬ Covers w b) :
    (p.write w.1 w.2).bytes b = p.bytes b := if_neg h

theorem bytes_writeAll (p : ProcessImage) (writes : List (Addr × UInt64)) (b : Addr) :
    (p.writeAll writes).bytes b = p.latest writes b := by
  -- The first write counts only where no later one covers the byte; else it is written over.
  induction writes generalizing p with
  | nil => rfl
  | cons w writes ih =>
    have hrest : (p.writeAll (w :: writes)).bytes b = (p.write w.1 w.2).latest writes b := ih _
    rw [hrest, latest, latest, List.findRev?]
    cases hl : writes.findRev? fun w => Covers w b with
    | some v =>
      by_cases hc : Covers w b
      · simp only [bytes_write_of_covers hc, Option.map_map]
        rfl
      · simp only [bytes_write_of_not_covers hc]
    | none =>
      by_cases hc : Covers w b
      · simp only [hc, decide_true]
        exact bytes_write_of_covers hc
      · simp only [hc, decide_false]
        exact bytes_write_of_not_covers hc

theorem bytes_writeAll_eq_none_iff (p : ProcessImage) (writes : List (Addr × UInt64)) (b : Addr) :
    (p.writeAll writes).bytes b = none ↔ p.bytes b = none := by
  rw [bytes_writeAll, latest]
  split <;> simp

theorem mappedAt_writeAll_iff (p : ProcessImage) (writes : List (Addr × UInt64)) (n : Nat) (addr : Addr) :
    (p.writeAll writes).MappedAt n addr ↔ p.MappedAt n addr := by
  simp only [MappedAt, Option.isSome_iff_ne_none, ne_eq, bytes_writeAll_eq_none_iff]

theorem longestRun_mappedRun (p : ProcessImage) (addr : Addr) (n : Nat) :
    p.LongestRun addr n (p.mappedRun addr n) := by
  refine ⟨p.length_mappedRun_le addr n, ?_, ?_⟩
  · intro i b hi
    induction n generalizing addr i with
    | zero => simp [mappedRun] at hi
    | succ n ih =>
      cases hb : p.bytes addr with
      | none => simp [mappedRun, hb] at hi
      | some first =>
        rw [mappedRun, hb] at hi
        cases i with
        | zero =>
          obtain rfl : first = b := by simpa using hi
          simpa using hb
        | succ i =>
          rw [Nat.succ_eq_add_one, Nat.add_comm, add_ofNat_add]
          exact ih (addr + 1) i hi
  · intro hlt
    induction n generalizing addr with
    | zero => omega
    | succ n ih =>
      cases hb : p.bytes addr with
      | none => simp [mappedRun, hb]
      | some first =>
        simp only [mappedRun, hb, List.length_cons] at hlt ⊢
        rw [Nat.add_comm, add_ofNat_add]
        exact ih (addr + 1) (Nat.lt_of_succ_lt_succ hlt)

namespace LongestRun

variable {n : Nat} {run run' : List UInt8}

theorem mappedAt_length (h : p.LongestRun addr n run) : p.MappedAt run.length addr := by
  intro i hi
  rw [h.mapped i _ (List.getElem?_eq_getElem hi)]
  rfl

theorem length_eq_self_iff (h : p.LongestRun addr n run) : run.length = n ↔ p.MappedAt n addr := by
  constructor
  · rintro rfl
    exact h.mappedAt_length
  · intro hm
    by_contra hne
    have hlt : run.length < n := Nat.lt_of_le_of_ne h.length_le hne
    have hmapped := hm _ hlt
    simp [h.ends hlt] at hmapped

theorem length_eq_iff (h : p.LongestRun addr n run) {k : Nat} (hk : k < n) :
    run.length = k ↔ p.MappedAt k addr ∧ p.bytes (addr + UInt64.ofNat k) = none := by
  constructor
  · rintro rfl
    exact ⟨h.mappedAt_length, h.ends hk⟩
  · rintro ⟨hm, hnone⟩
    obtain hlt | rfl | hgt := Nat.lt_trichotomy run.length k
    · have hmapped := hm _ hlt
      simp [h.ends (Nat.lt_trans hlt hk)] at hmapped
    · rfl
    · have hmapped := h.mapped k _ (List.getElem?_eq_getElem hgt)
      rw [hnone] at hmapped
      cases hmapped

theorem unique (h : p.LongestRun addr n run) (h' : p.LongestRun addr n run') : run = run' := by
  have hlength : run.length = run'.length := by
    obtain heq | hlt := Nat.eq_or_lt_of_le h'.length_le
    · rw [heq]
      exact h.length_eq_self_iff.2 (h'.length_eq_self_iff.1 heq)
    · exact (h.length_eq_iff hlt).2 ((h'.length_eq_iff hlt).1 rfl)
  apply List.ext_getElem hlength
  intro i hi hi'
  have hb := h.mapped i _ (List.getElem?_eq_getElem hi)
  have hb' := h'.mapped i _ (List.getElem?_eq_getElem hi')
  rw [hb] at hb'
  exact Option.some.inj hb'

theorem value_eq_number (h : p.LongestRun addr n run) (hfull : run.length = n) :
    LittleEndian.value run = p.number addr n := by
  rw [LittleEndian.value_eq_sum, hfull, number]
  apply Finset.sum_congr rfl
  intro i hi
  have hlt : i < run.length := by
    rw [hfull]
    exact Finset.mem_range.1 hi
  have hb := List.getElem?_eq_getElem hlt
  rw [h.mapped i _ hb, List.getD_eq_getElem?_getD, hb]

theorem number_lt (h : p.LongestRun addr n run) (hfull : run.length = n) : p.number addr n < 2 ^ (8 * n) := by
  have hlt := LittleEndian.value_lt run
  rwa [Nat.one_shiftLeft, h.value_eq_number hfull, hfull] at hlt

end LongestRun

/-- Why a read has no answer that got no further than so many bytes. -/
def readFailure (copied : Nat) : String := if copied = 0 then badAddress else shortRead copied

theorem readFailure_inj : ∀ m < 8, ∀ n < 8, readFailure m = readFailure n → m = n := by decide

theorem pos_and_le_of_isWordWidth (hw : isWordWidth width = true) : 0 < width ∧ width ≤ 8 := by
  obtain rfl | rfl := isWordWidth_iff.1 hw <;> decide

theorem word_of_longestRun {run : List UInt8} (hw : isWordWidth width = true) (h : p.LongestRun addr width run) :
    p.word addr width =
      if run.length = width then .ok (.ofNat (LittleEndian.value run))
      else .error (.memory addr width (readFailure run.length)) := by
  obtain rfl := h.unique (p.longestRun_mappedRun addr width)
  simp only [word, hw, if_true, readFailure, List.length_eq_zero_iff]
  split
  · rfl
  · split <;> rfl

theorem word_eq_ok_iff (hw : isWordWidth width = true) {v : UInt64} :
    p.word addr width = .ok v ↔ p.MappedAt width addr ∧ v.toNat = p.number addr width := by
  have hrun := p.longestRun_mappedRun addr width
  rw [word_of_longestRun hw hrun, ← hrun.length_eq_self_iff]
  split
  · rename_i hfull
    have hle : 2 ^ (8 * width) ≤ UInt64.size := by
      obtain rfl | rfl := isWordWidth_iff.1 hw <;> decide
    have hlt := Nat.lt_of_lt_of_le (hrun.number_lt hfull) hle
    rw [hrun.value_eq_number hfull]
    constructor
    · intro h
      cases h
      exact ⟨hfull, UInt64.toNat_ofNat_of_lt' hlt⟩
    · rintro ⟨-, hv⟩
      rw [← hv, UInt64.ofNat_toNat]
  · rename_i hshort
    simp [hshort]

theorem exists_word_iff (hw : isWordWidth width = true) :
    (∃ v, p.word addr width = .ok v) ↔ p.MappedAt width addr := by
  have hrun := p.longestRun_mappedRun addr width
  rw [word_of_longestRun hw hrun, ← hrun.length_eq_self_iff]
  split <;> simp_all

theorem word_eq_error_iff (hw : isWordWidth width = true) {e : AccessError} :
    p.word addr width = .error e ↔ ∃ n < width, p.MappedAt n addr ∧ p.bytes (addr + UInt64.ofNat n) = none ∧
      e = .memory addr width (readFailure n) := by
  have hrun := p.longestRun_mappedRun addr width
  rw [word_of_longestRun hw hrun]
  constructor
  · intro h
    split at h
    · cases h
    · rename_i hshort
      cases h
      have hlt := Nat.lt_of_le_of_ne hrun.length_le hshort
      obtain ⟨hm, hnone⟩ := (hrun.length_eq_iff hlt).1 rfl
      exact ⟨_, hlt, hm, hnone, rfl⟩
  · rintro ⟨n, hlt, hm, hnone, rfl⟩
    have hlength := (hrun.length_eq_iff hlt).2 ⟨hm, hnone⟩
    rw [hlength, if_neg (Nat.ne_of_lt hlt)]

/-- The reason of a failed read tells how many bytes are mapped before the first that is not. -/
theorem word_eq_readFailure_iff (hw : isWordWidth width = true) {n : Nat} (hn : n < width) :
    p.word addr width = .error (.memory addr width (readFailure n)) ↔
      p.MappedAt n addr ∧ p.bytes (addr + UInt64.ofNat n) = none := by
  have hle := (pos_and_le_of_isWordWidth hw).2
  rw [word_eq_error_iff hw]
  constructor
  · rintro ⟨m, hm, hmapped, hnone, he⟩
    have hreason : readFailure n = readFailure m := by simpa using he
    obtain rfl := readFailure_inj n (Nat.lt_of_lt_of_le hn hle) m (Nat.lt_of_lt_of_le hm hle) hreason
    exact ⟨hmapped, hnone⟩
  · rintro ⟨hmapped, hnone⟩
    exact ⟨n, hn, hmapped, hnone, rfl⟩

theorem mappedAt_zero : p.MappedAt 0 addr := fun _ h => absurd h (Nat.not_lt_zero _)

theorem word_eq_badAddress_iff (hw : isWordWidth width = true) :
    p.word addr width = .error (.memory addr width badAddress) ↔ p.bytes addr = none := by
  have hfirst := @word_eq_readFailure_iff p addr width hw 0 (pos_and_le_of_isWordWidth hw).1
  simpa [mappedAt_zero, readFailure] using hfirst

theorem number_add (p : ProcessImage) (addr : Addr) (m n : Nat) :
    p.number addr (m + n) = p.number addr m + 256 ^ m * p.number (addr + UInt64.ofNat m) n := by
  simp only [number]
  rw [Finset.sum_range_add, Finset.mul_sum]
  congr 1
  apply Finset.sum_congr rfl
  intro i _
  rw [add_ofNat_add, pow_add, mul_left_comm]

theorem mappedAt_add_iff {m n : Nat} :
    p.MappedAt (m + n) addr ↔ p.MappedAt m addr ∧ p.MappedAt n (addr + UInt64.ofNat m) := by
  constructor
  · intro h
    refine ⟨fun i hi => h i (Nat.lt_add_right n hi), fun i hi => ?_⟩
    rw [← add_ofNat_add]
    exact h (m + i) (Nat.add_lt_add_left hi m)
  · rintro ⟨hm, hn⟩ i hi
    obtain hlt | hle := Nat.lt_or_ge i m
    · exact hm i hlt
    · obtain ⟨j, rfl⟩ := Nat.exists_eq_add_of_le hle
      rw [add_ofNat_add]
      exact hn j (Nat.lt_of_add_lt_add_left hi)

theorem word_eight_iff {v : UInt64} : p.word addr 8 = .ok v ↔
    ∃ low high, p.word addr 4 = .ok low ∧ p.word (addr + 4) 4 = .ok high ∧
      v.toNat = low.toNat + 2 ^ 32 * high.toNat := by
  have hmapped : p.MappedAt 8 addr ↔ p.MappedAt 4 addr ∧ p.MappedAt 4 (addr + 4) :=
    mappedAt_add_iff (m := 4) (n := 4)
  have hnumber : p.number addr 8 = p.number addr 4 + 2 ^ 32 * p.number (addr + 4) 4 := p.number_add addr 4 4
  rw [word_eq_ok_iff rfl, hmapped, hnumber]
  constructor
  · rintro ⟨⟨hlow, hhigh⟩, hv⟩
    obtain ⟨low, hl⟩ := (exists_word_iff rfl).2 hlow
    obtain ⟨high, hh⟩ := (exists_word_iff rfl).2 hhigh
    refine ⟨low, high, hl, hh, ?_⟩
    rw [hv, ((word_eq_ok_iff rfl).1 hl).2, ((word_eq_ok_iff rfl).1 hh).2]
  · rintro ⟨low, high, hl, hh, hv⟩
    obtain ⟨hlow, hl⟩ := (word_eq_ok_iff rfl).1 hl
    obtain ⟨hhigh, hh⟩ := (word_eq_ok_iff rfl).1 hh
    exact ⟨⟨hlow, hhigh⟩, by rw [hv, hl, hh]⟩

theorem word_congr (h : ∀ i < width, p.bytes (addr + UInt64.ofNat i) = q.bytes (addr + UInt64.ofNat i)) :
    p.word addr width = q.word addr width := by
  simp only [word, mappedRun_congr h]

theorem word_writeAll_of_last {earlier later : List (Addr × UInt64)} {w : Addr × UInt64}
    (hm : p.MappedAt 8 w.1) (hlater : ∀ v ∈ later, ∀ i < 8, ¬ Covers v (w.1 + UInt64.ofNat i)) :
    (p.writeAll (earlier ++ w :: later)).word w.1 8 = .ok w.2 := by
  have hsplit : p.writeAll (earlier ++ w :: later) = ((p.writeAll earlier).write w.1 w.2).writeAll later :=
    List.foldl_append
  have hself : ((p.writeAll earlier).store 8 w.1 w.2).word w.1 8 = .ok (lowBytes 8 w.2) :=
    word_store_self rfl ((mappedAt_writeAll_iff p earlier 8 w.1).2 hm) w.2
  have hapart : ∀ v ∈ later, Apart 8 w.1 v.1 := fun v hv => apart_of_not_covers (hlater v hv)
  rw [hsplit, writeAll_eq_storeAll, ← store_eight, word_storeAll_of_apart hapart, hself,
    lowBytes_of_lt (UInt64.toNat_lt w.2)]

end ProcessImage

/-- A call that copies so many bytes from an address, or gives the text of its error. -/
abbrev CopyCall := Addr → Nat → Except String (List UInt8)

namespace CopyCall

/-- The call copies the longest run of mapped bytes, and refuses where there is none. -/
structure Copies (call : CopyCall) (p : ProcessImage) : Prop where
  refuses : ∀ addr n, 0 < n → p.bytes addr = none → call addr n = .error ProcessImage.badAddress
  copies : ∀ addr n, 0 < n → p.bytes addr ≠ none → ∃ run, p.LongestRun addr n run ∧ call addr n = .ok run

/-- All the bytes asked for; an error of the call is reported with its text, and so is a short copy. -/
def readBytes (call : CopyCall) (addr : Addr) (width : Nat) : Except AccessError (List UInt8) :=
  match call addr width with
  | .error reason => .error (.memory addr width reason)
  | .ok run =>
    if run.length = width then .ok run
    else .error (.memory addr width (ProcessImage.shortRead run.length))

def word (call : CopyCall) (addr : Addr) (width : Nat) : Except AccessError UInt64 :=
  if isWordWidth width then (call.readBytes addr width).map fun run => .ofNat (LittleEndian.value run)
  else .error (.pointerWidth width)

/-- The call as it is on this process. -/
def ofImage (p : ProcessImage) : CopyCall := fun addr n =>
  if p.bytes addr = none then .error ProcessImage.badAddress else .ok (p.mappedRun addr n)

theorem ofImage_copies (p : ProcessImage) : (ofImage p).Copies p where
  refuses _ _ _ hnone := if_pos hnone
  copies addr n _ hsome := ⟨_, p.longestRun_mappedRun addr n, if_neg hsome⟩

theorem Copies.word_eq {call : CopyCall} {p : ProcessImage} (h : call.Copies p) (addr : Addr) (width : Nat) :
    call.word addr width = p.word addr width := by
  cases hw : isWordWidth width with
  | false => simp [word, p.word_of_unsupported hw, hw]
  | true =>
    have hpos := (ProcessImage.pos_and_le_of_isWordWidth hw).1
    simp only [word, hw, if_true, readBytes]
    by_cases hb : p.bytes addr = none
    · rw [h.refuses addr width hpos hb, (ProcessImage.word_eq_badAddress_iff hw).2 hb]
      rfl
    · obtain ⟨run, hrun, hcall⟩ := h.copies addr width hpos hb
      have hne : run.length ≠ 0 := by
        intro hzero
        have hnone := ((hrun.length_eq_iff hpos).1 hzero).2
        simp [hb] at hnone
      rw [hcall, ProcessImage.word_of_longestRun hw hrun, ProcessImage.readFailure, if_neg hne]
      by_cases hfull : run.length = width
      · simp [hfull, Except.map]
      · simp [hfull, Except.map]

end CopyCall

/-- A read gives the number that the latest bytes make up if all are mapped, and else says how far it got. Any
call that copies the mapped bytes gives the same answers. -/
theorem ProcessImage.reads_latest_bytes (p : ProcessImage) (writes : List (Addr × UInt64)) :
    let q := p.writeAll writes
    (∀ addr width, isWordWidth width = true →
      ((∃ v, q.memory.word addr width = .ok v) ↔ p.MappedAt width addr) ∧
      (∀ v, q.memory.word addr width = .ok v →
        v.toNat = ∑ i ∈ Finset.range width,
          ((p.latest writes (addr + UInt64.ofNat i)).getD 0).toNat * 256 ^ i ∧
        v.toNat < 2 ^ (8 * width)) ∧
      (q.memory.word addr width = .error (.memory addr width badAddress) ↔ p.bytes addr = none) ∧
      (∀ n, 0 < n → n < width →
        (q.memory.word addr width = .error (.memory addr width (shortRead n)) ↔
          p.MappedAt n addr ∧ p.bytes (addr + UInt64.ofNat n) = none)) ∧
      ∀ e, q.memory.word addr width = .error e → e = .memory addr width badAddress ∨
        ∃ n, 0 < n ∧ n < width ∧ e = .memory addr width (shortRead n)) ∧
    (∀ addr width, isWordWidth width = false → q.memory.word addr width = .error (.pointerWidth width)) ∧
    (∀ addr v, q.memory.word addr 8 = .ok v ↔
      ∃ low high, q.memory.word addr 4 = .ok low ∧ q.memory.word (addr + 4) 4 = .ok high ∧
        v.toNat = low.toNat + 2 ^ 32 * high.toNat) ∧
    (∀ earlier w later, writes = earlier ++ w :: later → p.MappedAt 8 w.1 →
      (∀ v ∈ later, ∀ i < 8, ¬ Covers v (w.1 + UInt64.ofNat i)) → q.memory.word w.1 8 = .ok w.2) ∧
    (∀ w addr width, (∀ i < width, ¬ Covers w (addr + UInt64.ofNat i)) →
      (q.write w.1 w.2).memory.word addr width = q.memory.word addr width) ∧
    (∃ call : CopyCall, call.Copies q) ∧
    ∀ call : CopyCall, call.Copies q → ∀ addr width, call.word addr width = q.memory.word addr width := by
  intro q
  have hnone : ∀ b, q.bytes b = none ↔ p.bytes b = none := p.bytes_writeAll_eq_none_iff writes
  have hmapped : ∀ n addr, q.MappedAt n addr ↔ p.MappedAt n addr := p.mappedAt_writeAll_iff writes
  refine ⟨?_, ?_, ?_, ?_, ?_, ⟨.ofImage q, CopyCall.ofImage_copies q⟩, ?_⟩
  · intro addr width hw
    refine ⟨?_, ?_, ?_, ?_, ?_⟩
    · exact (exists_word_iff hw).trans (hmapped width addr)
    · intro v hv
      obtain ⟨hm, hnumber⟩ := (word_eq_ok_iff hw).1 hv
      have hrun := q.longestRun_mappedRun addr width
      have hlt := hrun.number_lt (hrun.length_eq_self_iff.2 hm)
      refine ⟨?_, by rwa [hnumber]⟩
      simp only [hnumber, number, q, bytes_writeAll]
    · exact (word_eq_badAddress_iff hw).trans (hnone addr)
    · intro n hpos hn
      have hreason : readFailure n = shortRead n := if_neg (Nat.ne_of_gt hpos)
      rw [← hmapped, ← hnone, ← hreason]
      exact word_eq_readFailure_iff hw hn
    · intro e he
      obtain ⟨n, hn, -, -, rfl⟩ := (word_eq_error_iff hw).1 he
      obtain rfl | hpos := Nat.eq_zero_or_pos n
      · exact .inl rfl
      · have hreason : readFailure n = shortRead n := if_neg (Nat.ne_of_gt hpos)
        exact .inr ⟨n, hpos, hn, by rw [hreason]⟩
  · intro addr width hw
    exact q.word_of_unsupported hw addr
  · intro addr v
    exact word_eight_iff
  · intro earlier w later hsplit hm hlater
    have hlast := @word_writeAll_of_last p earlier later w hm hlater
    rwa [← hsplit] at hlast
  · intro w addr width hmisses
    exact word_congr fun i hi => bytes_write_of_not_covers (hmisses i hi)
  · intro call hcall addr width
    exact hcall.word_eq addr width

end JitFrames
