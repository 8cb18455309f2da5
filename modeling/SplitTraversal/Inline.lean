import SplitTraversal.Guarantee
import SplitTraversal.Text.Record
import SplitTraversal.Visit

/-!
Sequences of no element or one, held in place. They never split.
-/

namespace SplitTraversal

structure Inline (α : Type u) where
  element : Option α
  deriving DecidableEq, Repr

namespace Inline

def empty : Inline α := ⟨none⟩

def of (x : α) : Inline α := ⟨some x⟩

def toList (s : Inline α) : List α := s.element.toList

def size (s : Inline α) : Nat := if s.element.isSome then 1 else 0

def guarantees (_ : Inline α) : Guarantees := .ofList [.sized, .subsized, .ordered, .immutable]

/-- Takes the element out, then visits it. -/
def advance (visit : Visitor σ α) (acc : σ) (s : Inline α) : Except σ (σ × Bool) × Inline α :=
  match s.element with
  | some x => (visit.visited acc x, empty)
  | none => (.ok (acc, false), s)

def drain (visit : Visitor σ α) (acc : σ) (s : Inline α) : Except σ σ × Inline α :=
  match s.element with
  | some x => (visit acc x, empty)
  | none => (.ok acc, s)

section Traversal

variable (s : Inline α) (visit : Visitor σ α) (acc : σ)

theorem advance_fst : (s.advance visit acc).1 = visit.first acc s.toList := by
  obtain ⟨element⟩ := s
  cases element <;> rfl

theorem advance_snd : (s.advance visit acc).2 = empty := by
  obtain ⟨element⟩ := s
  cases element <;> rfl

theorem toList_advance : (s.advance visit acc).2.toList = s.toList.tail := by
  obtain ⟨element⟩ := s
  cases element <;> rfl

theorem drain_fst : (s.drain visit acc).1 = s.toList.foldlM visit acc := by
  obtain ⟨element⟩ := s
  cases element with
  | none => rfl
  | some x => simp [drain, toList]

theorem drain_snd : (s.drain visit acc).2 = empty := by
  obtain ⟨element⟩ := s
  cases element <;> rfl

theorem toList_drain : (s.drain visit acc).2.toList = [] := by
  obtain ⟨element⟩ := s
  cases element <;> rfl

theorem size_eq : s.size = s.toList.length := by
  obtain ⟨element⟩ := s
  cases element <;> rfl

end Traversal

def describe (text : α → String) (s : Inline α) : String :=
  Text.record "InlineSequence" [("element", Text.option (s.element.map text))]

end Inline

end SplitTraversal
