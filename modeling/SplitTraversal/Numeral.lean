/-!
Element types that the integers of a range are read as.
-/

namespace SplitTraversal

class Numeral (α : Type u) where
  ofInt : Int → α

instance : Numeral Int := ⟨id⟩

end SplitTraversal
