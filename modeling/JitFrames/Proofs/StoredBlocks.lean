import JitFrames.Block
import JitFrames.Proofs.StoredWords

/-! A process laid out in blocks. Blocks that share no byte hold all their words, whatever was in the process
before; a word of one is apart from every other word of the same block and of the others. -/
namespace JitFrames

theorem toNat_add_ofNat {a : Addr} {n : Nat} (h : a.toNat + n < UInt64.size) :
    (a + UInt64.ofNat n).toNat = a.toNat + n := by
  have hn : n < UInt64.size := by omega
  rw [UInt64.toNat_add, UInt64.toNat_ofNat_of_lt' hn]
  exact Nat.mod_eq_of_lt h

theorem apart_of_le {a b : Addr} (h : a.toNat + 8 ≤ b.toNat) (hb : b.toNat + 8 ≤ UInt64.size) :
    Apart 8 a b := by
  intro i hi j hj he
  have hnat := congrArg UInt64.toNat he
  rw [toNat_add_ofNat (by omega), toNat_add_ofNat (by omega)] at hnat
  omega

namespace Block

variable {a b : Block}

theorem mem_words_iff {w : Addr × UInt64} :
    w ∈ b.words ↔ ∃ c ∈ b.contents, (b.start + .ofNat c.1, c.2) = w := List.mem_map

/-- A word stands at its distance from the start, and ends in the block. -/
theorem Proper.exists_distance (hb : b.Proper) {w : Addr × UInt64} (hw : w ∈ b.words) :
    ∃ d, w.1 = b.start + .ofNat d ∧ w.1.toNat = b.start.toNat + d ∧ d + 8 ≤ b.size := by
  obtain ⟨c, hc, rfl⟩ := mem_words_iff.1 hw
  have hinside := b.inside c hc
  have hend := hb.2
  exact ⟨c.1, rfl, toNat_add_ofNat (by omega), hinside⟩

theorem Proper.pairwise_words (hb : b.Proper) : b.words.Pairwise fun v w => Apart 8 v.1 w.1 := by
  rw [words, List.pairwise_map]
  refine b.ordered.imp_of_mem ?_
  intro v w hv hw hvw
  have hend := hb.2
  have hv' := b.inside v hv
  have hw' := b.inside w hw
  have hvn : (b.start + UInt64.ofNat v.1).toNat = b.start.toNat + v.1 := toNat_add_ofNat (by omega)
  have hwn : (b.start + UInt64.ofNat w.1).toNat = b.start.toNat + w.1 := toNat_add_ofNat (by omega)
  apply apart_of_le
  · rw [hvn, hwn]
    omega
  · rw [hwn]
    omega

theorem Disjoint.apart (h : a.Disjoint b) (ha : a.Proper) (hb : b.Proper) {v w : Addr × UInt64}
    (hv : v ∈ a.words) (hw : w ∈ b.words) : Apart 8 v.1 w.1 := by
  obtain ⟨c, -, hvc, hc⟩ := ha.exists_distance hv
  obtain ⟨d, -, hwd, hd⟩ := hb.exists_distance hw
  have haend := ha.2
  have hbend := hb.2
  rcases h with h | h
  · exact apart_of_le (by omega) (by omega)
  · exact (apart_of_le (by omega) (by omega)).symm

end Block

namespace ProcessImage

variable {p : ProcessImage} {blocks : List Block}

theorem isSome_map {addr : Addr} (h : (p.bytes addr).isSome) (start : Addr) (size : Nat) :
    ((p.map start size).bytes addr).isSome := by
  simp only [map]
  split
  · rfl
  · exact h

theorem mapAll_cons (p : ProcessImage) (b : Block) (blocks : List Block) :
    p.mapAll (b :: blocks) = (p.map b.start b.size).mapAll blocks := rfl

theorem isSome_mapAll {addr : Addr} (h : (p.bytes addr).isSome) :
    ((p.mapAll blocks).bytes addr).isSome := by
  induction blocks generalizing p with
  | nil => exact h
  | cons b blocks ih => exact ih (isSome_map h b.start b.size)

theorem isSome_mapAll_of_mem {b : Block} (hb : b ∈ blocks) {addr : Addr}
    (h : (addr - b.start).toNat < b.size) : ((p.mapAll blocks).bytes addr).isSome := by
  induction blocks generalizing p with
  | nil => simp at hb
  | cons c blocks ih =>
    rw [mapAll_cons]
    rcases List.mem_cons.1 hb with rfl | hb
    · have hmapped : ((p.map b.start b.size).bytes addr).isSome := by simp [map, h]
      exact isSome_mapAll hmapped
    · exact ih hb

theorem mappedAt_mapAll {b : Block} (hb : b ∈ blocks) (hproper : b.Proper) {w : Addr × UInt64}
    (hw : w ∈ b.words) : (p.mapAll blocks).MappedAt 8 w.1 := by
  obtain ⟨d, hwd, -, hd⟩ := hproper.exists_distance hw
  have hend := hproper.2
  intro i hi
  have hdistance : w.1 + UInt64.ofNat i - b.start = UInt64.ofNat (d + i) := by
    rw [hwd, UInt64.add_assoc, ← UInt64.ofNat_add, UInt64.add_comm, UInt64.add_sub_cancel]
  refine isSome_mapAll_of_mem hb ?_
  rw [hdistance, UInt64.toNat_ofNat_of_lt' (by omega)]
  omega

theorem pairwise_flatMap_words (hproper : ∀ b ∈ blocks, b.Proper) (hdisjoint : blocks.Pairwise Block.Disjoint) :
    (blocks.flatMap Block.words).Pairwise fun v w => Apart 8 v.1 w.1 := by
  refine List.pairwise_flatMap.2 ⟨fun b hb => (hproper b hb).pairwise_words, ?_⟩
  exact hdisjoint.imp_of_mem fun ha hb h v hv w hw => h.apart (hproper _ ha) (hproper _ hb) hv hw

/-- Every word is read back from its block. -/
theorem word_allot (hproper : ∀ b ∈ blocks, b.Proper) (hdisjoint : blocks.Pairwise Block.Disjoint)
    {w : Addr × UInt64} (hw : w ∈ blocks.flatMap Block.words) : (p.allot blocks).word w.1 8 = .ok w.2 := by
  have hmapped : ∀ w ∈ blocks.flatMap Block.words, (p.mapAll blocks).MappedAt 8 w.1 := fun w hw => by
    obtain ⟨b, hb, hw⟩ := List.mem_flatMap.1 hw
    exact mappedAt_mapAll hb (hproper b hb) hw
  have hholds : (p.allot blocks).word w.1 8 = .ok (lowBytes 8 w.2) :=
    holds_storeAll rfl hmapped (pairwise_flatMap_words hproper hdisjoint) w hw
  rw [hholds, lowBytes_of_lt (UInt64.toNat_lt_size w.2)]

theorem globals_mapAll (p : ProcessImage) (blocks : List Block) : (p.mapAll blocks).globals = p.globals := by
  induction blocks generalizing p with
  | nil => rfl
  | cons b blocks ih => exact ih _

@[simp] theorem globals_allot (p : ProcessImage) (blocks : List Block) :
    (p.allot blocks).globals = p.globals :=
  (globals_storeAll _ 8 _).trans (p.globals_mapAll blocks)

theorem globals_foldl_declare (p : ProcessImage) (gs : List Global) :
    (gs.foldl declare p).globals = p.globals ++ gs := by
  induction gs generalizing p with
  | nil => simp
  | cons g gs ih => simp [ih, declare]

end ProcessImage
end JitFrames
