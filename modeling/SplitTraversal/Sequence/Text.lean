import SplitTraversal.Sequence.Basic

/-!
The written form of a sequence. The parts of a concatenation are written in place.
-/

namespace SplitTraversal.Sequence

def concatText (first second : Option String) (overflowed : Bool) : String :=
  Text.record "Concat"
    [("first", Text.option first), ("second", Text.option second),
      ("unsized_", Text.bool overflowed)]

def describe (text : α → String) : Sequence α → String
  | range r => r.describe
  | empty => "EmptySequence"
  | inline s => s.describe text
  | built b => b.describe text
  | buffer q => q.describe text
  | supplied s => s.describe text
  | both a b overflowed => concatText (some (a.describe text)) (some (b.describe text)) overflowed
  | firstOnly a => concatText (some (a.describe text)) none false
  | secondOnly b overflowed => concatText none (some (b.describe text)) overflowed

end SplitTraversal.Sequence
