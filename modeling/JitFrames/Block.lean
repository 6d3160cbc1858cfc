import JitFrames.ProcessImage

/-! Blocks of memory as a process gives them out, each with the words that are stored in it. -/
namespace JitFrames

/-- A run of bytes, and words at their distances from its start, each behind the one before. -/
structure Block where
  start : Addr
  size : Nat
  contents : List (Nat × UInt64) := []
  inside : ∀ w ∈ contents, w.1 + 8 ≤ size := by simp
  ordered : contents.Pairwise fun v w => v.1 + 8 ≤ w.1 := by simp

namespace Block

/-- Null is in no block, and the address space goes on behind every block. -/
def Proper (b : Block) : Prop := 0 < b.start.toNat ∧ b.start.toNat + b.size < UInt64.size

def Disjoint (a b : Block) : Prop :=
  a.start.toNat + a.size ≤ b.start.toNat ∨ b.start.toNat + b.size ≤ a.start.toNat

instance (b : Block) : Decidable b.Proper := inferInstanceAs (Decidable (_ ∧ _))

instance (a b : Block) : Decidable (a.Disjoint b) := inferInstanceAs (Decidable (_ ∨ _))

def words (b : Block) : List (Addr × UInt64) := b.contents.map fun w => (b.start + .ofNat w.1, w.2)

end Block

namespace ProcessImage

def mapAll (p : ProcessImage) (blocks : List Block) : ProcessImage :=
  blocks.foldl (fun p b => p.map b.start b.size) p

def allot (p : ProcessImage) (blocks : List Block) : ProcessImage :=
  (blocks.flatMap Block.words).foldl (fun p w => p.write w.1 w.2) (p.mapAll blocks)

end ProcessImage
end JitFrames
