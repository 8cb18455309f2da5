import SplitTraversal.Element

/-!
Digests of long runs of elements.
-/

namespace SplitTraversal

structure Digest (α : Type) where
  count : Nat
  first : Option α
  last : Option α
  hash : Int

namespace Digest

def empty : Digest α := ⟨0, none, none, 0⟩

/-- Takes in one more element; the hash stays between zero and the modulus. -/
def add [Element α] (d : Digest α) (x : α) : Digest α where
  count := d.count + 1
  first := d.first.or (some x)
  last := some x
  hash := (d.hash * 31 + Element.digestKey x) % 1000000007

def ofArray [Element α] (xs : Array α) : Digest α := xs.foldl add empty

end Digest

end SplitTraversal
