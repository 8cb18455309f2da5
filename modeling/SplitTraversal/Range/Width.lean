/-!
The two integer widths that ranges come in, and arithmetic that wraps at their limits.
-/

namespace SplitTraversal

inductive Width
  | word32
  | word64
  deriving DecidableEq, Repr

namespace Width

def modulus : Width → Nat
  | word32 => 4294967296
  | word64 => 18446744073709551616

def minValue : Width → Int
  | word32 => -2147483648
  | word64 => -9223372036854775808

def maxValue : Width → Int
  | word32 => 2147483647
  | word64 => 9223372036854775807

def Fits (w : Width) (i : Int) : Prop := w.minValue ≤ i ∧ i ≤ w.maxValue

instance (w : Width) (i : Int) : Decidable (w.Fits i) :=
  inferInstanceAs (Decidable (_ ∧ _))

/-- The value of the type that is congruent to the integer. -/
def wrap (w : Width) (i : Int) : Int := Int.bmod i w.modulus

theorem wrap_of_fits {w : Width} {i : Int} (h : w.Fits i) : w.wrap i = i := by
  cases w <;> simp only [Fits, minValue, maxValue] at h <;>
    simp only [wrap, modulus, Int.bmod_def] <;> omega

/-- The most elements a range may hold, where its type sets a limit: no signed 64-bit value counts
more than this. -/
def maxCount : Width → Option Nat
  | word32 => none
  | word64 => some 9223372036854775807

def name : Width → String
  | word32 => "RangeI32"
  | word64 => "RangeI64"

end Width

end SplitTraversal
