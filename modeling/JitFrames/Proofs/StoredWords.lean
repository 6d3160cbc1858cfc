import JitFrames.ProcessImage

/-! Words in the bytes of a process. A word stored in mapped memory is read back up to the bytes that it was
given, and stays there through every store that touches none of its bytes. -/
namespace JitFrames

/-- What is left of a word in that many bytes. -/
def lowBytes (width : Nat) (word : UInt64) : UInt64 := .ofNat (word.toNat % 1 <<< (8 * width))

theorem lowBytes_of_lt {width : Nat} {word : UInt64} (h : word.toNat < 1 <<< (8 * width)) :
    lowBytes width word = word := by
  rw [lowBytes, Nat.mod_eq_of_lt h, UInt64.ofNat_toNat]

/-- Two words of that many bytes have no byte in common. -/
def Apart (width : Nat) (a b : Addr) : Prop :=
  ∀ i < width, ∀ j < width, a + UInt64.ofNat i ≠ b + UInt64.ofNat j

instance (width : Nat) (a b : Addr) : Decidable (Apart width a b) :=
  @Nat.decidableBallLT width _ fun i _ => @Nat.decidableBallLT width _ fun j _ =>
    inferInstanceAs (Decidable (a + UInt64.ofNat i ≠ b + UInt64.ofNat j))

theorem Apart.symm {width : Nat} {a b : Addr} (h : Apart width a b) : Apart width b a :=
  fun i hi j hj he => h j hj i hi he.symm

/-- A read of that many bytes at the address gives what they can hold of the word. -/
def Memory.Holds (m : Memory) (width : Nat) (w : Addr × UInt64) : Prop :=
  m.word w.1 width = .ok (lowBytes width w.2)

theorem toNat_add_sub_cancel (a : Addr) {i : Nat} (h : i < UInt64.size) :
    (a + UInt64.ofNat i - a).toNat = i := by
  rw [UInt64.add_comm, UInt64.add_sub_cancel, UInt64.toNat_ofNat_of_lt' h]

theorem add_ofNat_toNat_sub (a b : Addr) : a + UInt64.ofNat (b - a).toNat = b := by
  rw [UInt64.ofNat_toNat, UInt64.add_comm, UInt64.sub_add_cancel]

theorem Apart.not_lt {width : Nat} {a b : Addr} (h : Apart width a b) {i : Nat} (hi : i < width) :
    ¬ (a + UInt64.ofNat i - b).toNat < width :=
  fun hj => h i hi _ hj (add_ofNat_toNat_sub b _).symm

namespace ProcessImage

/-- Stores the low bytes of a word; what is not mapped stays so. -/
def store (p : ProcessImage) (width : Nat) (addr : Addr) (word : UInt64) : ProcessImage :=
  { p with bytes := fun b =>
      let place := (b - addr).toNat
      if place < width then (p.bytes b).map fun _ => LittleEndian.byteAt word.toNat place else p.bytes b }

/-- Stores words in the order of the list. -/
def storeAll (p : ProcessImage) (width : Nat) (words : List (Addr × UInt64)) : ProcessImage :=
  words.foldl (fun p w => p.store width w.1 w.2) p

def MappedAt (p : ProcessImage) (width : Nat) (addr : Addr) : Prop :=
  ∀ i < width, (p.bytes (addr + UInt64.ofNat i)).isSome = true

instance (p : ProcessImage) (width : Nat) (addr : Addr) : Decidable (p.MappedAt width addr) :=
  @Nat.decidableBallLT width _ fun i _ =>
    inferInstanceAs (Decidable ((p.bytes (addr + UInt64.ofNat i)).isSome = true))

variable {p q : ProcessImage} {width : Nat} {addr : Addr}

theorem store_eight (p : ProcessImage) (addr : Addr) (word : UInt64) :
    p.store 8 addr word = p.write addr word := rfl

theorem MappedAt.store (h : p.MappedAt width addr) (a : Addr) (word : UInt64) :
    (p.store width a word).MappedAt width addr := by
  intro i hi
  simp only [ProcessImage.store]
  split
  · simpa using h i hi
  · exact h i hi

theorem mappedRun_eq_map {n : Nat} {f : Nat → UInt8}
    (h : ∀ i < n, p.bytes (addr + UInt64.ofNat i) = some (f i)) :
    p.mappedRun addr n = (List.range n).map f := by
  induction n generalizing addr f with
  | zero => rfl
  | succ n ih =>
    have h₀ : p.bytes addr = some (f 0) := by simpa using h 0 (by omega)
    have hs : ∀ i < n, p.bytes (addr + 1 + UInt64.ofNat i) = some (f (i + 1)) := by
      intro i hi
      have hi' := h (i + 1) (by omega)
      rwa [UInt64.ofNat_add, UInt64.add_comm (UInt64.ofNat i), ← UInt64.add_assoc] at hi'
    rw [List.range_succ_eq_map, List.map_cons, List.map_map, mappedRun, h₀]
    exact congrArg _ (ih (f := f ∘ Nat.succ) hs)

theorem mappedRun_congr {n : Nat}
    (h : ∀ i < n, p.bytes (addr + UInt64.ofNat i) = q.bytes (addr + UInt64.ofNat i)) :
    p.mappedRun addr n = q.mappedRun addr n := by
  induction n generalizing addr with
  | zero => rfl
  | succ n ih =>
    have h₀ : p.bytes addr = q.bytes addr := by simpa using h 0 (by omega)
    have hs : p.mappedRun (addr + 1) n = q.mappedRun (addr + 1) n := ih fun i hi => by
      have hi' := h (i + 1) (by omega)
      rwa [UInt64.ofNat_add, UInt64.add_comm (UInt64.ofNat i), ← UInt64.add_assoc] at hi'
    rw [mappedRun, mappedRun, h₀, hs]

theorem word_store_self (hw : isWordWidth width = true) (hm : p.MappedAt width addr) (word : UInt64) :
    (p.store width addr word).memory.Holds width (addr, word) := by
  have hsize : width < UInt64.size := by
    rcases isWordWidth_iff.1 hw with rfl | rfl <;> decide
  have hrun : (p.store width addr word).mappedRun addr width =
      (List.range width).map (LittleEndian.byteAt word.toNat) := by
    refine mappedRun_eq_map fun i hi => ?_
    have hp := toNat_add_sub_cancel addr (Nat.lt_trans hi hsize)
    obtain ⟨b, hb⟩ := Option.isSome_iff_exists.1 (hm i hi)
    simp only [ProcessImage.store, hp, if_pos hi, hb, Option.map_some]
  simp only [Memory.Holds, memory, ProcessImage.word, hw, if_true, hrun, List.length_map,
    List.length_range, LittleEndian.value_map_byteAt, lowBytes]

theorem word_store_of_apart {a : Addr} (h : Apart width addr a) (word : UInt64) :
    (p.store width a word).word addr width = p.word addr width := by
  have hrun : (p.store width a word).mappedRun addr width = p.mappedRun addr width :=
    mappedRun_congr fun i hi => by simp only [ProcessImage.store, if_neg (h.not_lt hi)]
  simp only [ProcessImage.word, hrun]

theorem word_storeAll_of_apart {words : List (Addr × UInt64)} (h : ∀ w ∈ words, Apart width addr w.1) :
    (p.storeAll width words).word addr width = p.word addr width := by
  induction words generalizing p with
  | nil => rfl
  | cons w ws ih =>
    have hrest : ((p.store width w.1 w.2).storeAll width ws).word addr width =
        (p.store width w.1 w.2).word addr width := ih fun v hv => h v (List.mem_cons_of_mem _ hv)
    exact hrest.trans (word_store_of_apart (h w List.mem_cons_self) w.2)

theorem globals_storeAll (p : ProcessImage) (width : Nat) (words : List (Addr × UInt64)) :
    (p.storeAll width words).globals = p.globals := by
  induction words generalizing p with
  | nil => rfl
  | cons w ws ih => exact ih _

theorem findGlobal_storeAll (p : ProcessImage) (width : Nat) (words : List (Addr × UInt64)) (name : String) :
    (p.storeAll width words).findGlobal name = p.findGlobal name := by
  simp only [findGlobal, globals_storeAll]

/-- Words that are stored apart from each other are all held afterwards. -/
theorem holds_storeAll {words : List (Addr × UInt64)} (hw : isWordWidth width = true)
    (hm : ∀ w ∈ words, p.MappedAt width w.1) (hd : words.Pairwise fun v w => Apart width v.1 w.1) :
    ∀ w ∈ words, (p.storeAll width words).memory.Holds width w := by
  induction words generalizing p with
  | nil => simp
  | cons v vs ih =>
    have hd' := List.pairwise_cons.1 hd
    intro w hmem
    rcases List.mem_cons.1 hmem with rfl | hmem
    · have hkept : (p.storeAll width (w :: vs)).word w.1 width = (p.store width w.1 w.2).word w.1 width :=
        word_storeAll_of_apart hd'.1
      exact hkept.trans (word_store_self hw (hm w List.mem_cons_self) w.2)
    · have hm' : ∀ u ∈ vs, (p.store width v.1 v.2).MappedAt width u.1 := fun u hu =>
        (hm u (List.mem_cons_of_mem _ hu)).store v.1 v.2
      exact ih hm' hd'.2 w hmem

end ProcessImage
end JitFrames
