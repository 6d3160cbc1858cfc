/-! Hexadecimal numerals: the shortest lower-case numeral of a number, two forms of it at a fixed width, and
a reader of numerals. The main statement is that the reader gives back the number that was written, through
leading zeros and leading blanks too. -/
namespace JitFrames.Hex

def digits (n : Nat) : List Char := Nat.toDigits 16 n

def digit? (c : Char) : Option Nat :=
  if '0' ≤ c ∧ c ≤ '9' then some (c.toNat - '0'.toNat)
  else if 'a' ≤ c ∧ c ≤ 'f' then some (c.toNat - 'a'.toNat + 10)
  else none

/-- Reads the digits behind a value already read. -/
def readFrom (n : Nat) : List Char → Option Nat
  | [] => some n
  | c :: cs => (digit? c).bind fun d => readFrom (16 * n + d) cs

/-- A numeral has at least one digit. -/
def read? : List Char → Option Nat
  | [] => none
  | cs => readFrom 0 cs

/-- Reads a numeral behind any number of blanks. -/
def readAligned? (cs : List Char) : Option Nat := read? (cs.dropWhile (· = ' '))

def zeroPadded (width n : Nat) : List Char := (digits n).leftpad width '0'

def rightAligned (width n : Nat) : List Char := (digits n).leftpad width ' '

theorem digits_ne_nil (n : Nat) : digits n ≠ [] := Nat.toDigits_ne_nil

/-- Sixteen digits are enough for a word. -/
theorem length_digits_le {n : Nat} (h : n < UInt64.size) : (digits n).length ≤ 16 :=
  (Nat.length_toDigits_le_iff (by decide) (by decide)).2 h

theorem digit?_digitChar {d : Nat} (h : d < 16) : digit? d.digitChar = some d := by
  revert d
  decide

theorem readFrom_append (n : Nat) (cs ds : List Char) :
    readFrom n (cs ++ ds) = (readFrom n cs).bind fun m => readFrom m ds := by
  induction cs generalizing n with
  | nil => rfl
  | cons c cs ih => cases h : digit? c <;> simp [readFrom, h, ih]

theorem readFrom_digits (n : Nat) : readFrom 0 (digits n) = some n := by
  induction n using Nat.strongRecOn with
  | ind n ih =>
    by_cases h : n < 16
    · simp [digits, Nat.toDigits_of_lt_base h, readFrom, digit?_digitChar h]
    · have hm : n % 16 < 16 := Nat.mod_lt _ (by decide)
      have hd := ih (n / 16) (by omega)
      rw [digits] at hd ⊢
      rw [Nat.toDigits_of_base_le (by decide) (by omega), readFrom_append, hd]
      simp only [Option.bind_some, readFrom, digit?_digitChar hm]
      exact congrArg some (by omega)

theorem read?_of_ne_nil {cs : List Char} (h : cs ≠ []) : read? cs = readFrom 0 cs := by
  cases cs with
  | nil => exact absurd rfl h
  | cons c cs => rfl

@[simp] theorem read?_digits (n : Nat) : read? (digits n) = some n := by
  rw [read?_of_ne_nil (digits_ne_nil n), readFrom_digits]

theorem readFrom_zero_replicate (k : Nat) (cs : List Char) :
    readFrom 0 (List.replicate k '0' ++ cs) = readFrom 0 cs := by
  induction k with
  | zero => rfl
  | succ k ih => simpa [List.replicate_succ, readFrom, digit?] using ih

@[simp] theorem read?_zeroPadded (width n : Nat) : read? (zeroPadded width n) = some n := by
  rw [read?_of_ne_nil (by simp [zeroPadded, List.leftpad, digits_ne_nil])]
  simp only [zeroPadded, List.leftpad, readFrom_zero_replicate, readFrom_digits]

theorem length_zeroPadded {width n : Nat} (hw : 16 ≤ width) (h : n < UInt64.size) :
    (zeroPadded width n).length = width := by
  have := length_digits_le h
  simp only [zeroPadded, List.leftpad, List.length_append, List.length_replicate]
  omega

theorem dropWhile_blank_replicate (k : Nat) (cs : List Char) :
    (List.replicate k ' ' ++ cs).dropWhile (· = ' ') = cs.dropWhile (· = ' ') := by
  induction k with
  | zero => rfl
  | succ k ih => simp [List.replicate_succ, ih]

theorem isSome_digit?_of_readFrom {n m : Nat} {cs : List Char} (h : readFrom n cs = some m) :
    ∀ c ∈ cs, (digit? c).isSome := by
  induction cs generalizing n with
  | nil => simp
  | cons c cs ih =>
    obtain ⟨d, hd, hr⟩ := Option.bind_eq_some_iff.1 h
    intro b hb
    rcases List.mem_cons.1 hb with rfl | hb
    · simp [hd]
    · exact ih hr b hb

theorem isSome_digit?_of_mem_digits {n : Nat} {c : Char} (h : c ∈ digits n) : (digit? c).isSome :=
  isSome_digit?_of_readFrom (readFrom_digits n) c h

theorem dropWhile_blank_digits (n : Nat) : (digits n).dropWhile (· = ' ') = digits n := by
  cases h : digits n with
  | nil => rfl
  | cons c cs =>
    have hc : (digit? c).isSome := isSome_digit?_of_mem_digits (h ▸ List.mem_cons_self)
    have hb : c ≠ ' ' := by
      rintro rfl
      simp [digit?] at hc
    simp [hb]

@[simp] theorem readAligned?_rightAligned (width n : Nat) :
    readAligned? (rightAligned width n) = some n := by
  rw [readAligned?, rightAligned, List.leftpad, dropWhile_blank_replicate, dropWhile_blank_digits,
    read?_digits]

theorem length_rightAligned {width n : Nat} (hw : 16 ≤ width) (h : n < UInt64.size) :
    (rightAligned width n).length = width := by
  have := length_digits_le h
  simp only [rightAligned, List.leftpad, List.length_append, List.length_replicate]
  omega

end JitFrames.Hex
