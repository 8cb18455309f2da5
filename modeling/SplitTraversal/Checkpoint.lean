import SplitTraversal.Guarantee
import SplitTraversal.Json
import SplitTraversal.Range.Basic

/-!
Checkpoints: the JSON form in which a range or a set of guarantees is stored and restored. What is
restored passes the same checks as what is made from bounds.
-/

namespace SplitTraversal

namespace Guarantees

def encode (g : Guarantees) : Json := .object [("bits", .int g.bits)]

/-- Reads a 16-bit code, dropping bits that stand for no guarantee. -/
def decode (v : Json) : Option Guarantees :=
  match v.fields? ["bits"] with
  | some [.int n] => if 0 ≤ n ∧ n ≤ 65535 then some (ofBits n.toNat) else none
  | _ => none

end Guarantees

namespace Range

def fieldNames : List String := ["from", "up_to", "last_pending"]

def encode (r : Range) : Json :=
  .object (fieldNames.zip [.int r.cursor, .int r.bound, .bool r.pending])

/-- Reads a range of the given width. The failure has a reason when the form is right and only the
bounds are refused. -/
def decode (w : Width) (v : Json) : Except (Option Error) Range :=
  match v.fields? fieldNames with
  | some [.int lower, .int upper, .bool pending] =>
      if w.Fits lower ∧ w.Fits upper then (ofBounds w lower upper pending).mapError some
      else .error none
  | _ => .error none

end Range

end SplitTraversal
