import SplitTraversal.Comparator
import SplitTraversal.Guarantee
import SplitTraversal.Size
import SplitTraversal.Text.Record
import SplitTraversal.Visit

/-!
Sequences that a caller supplies with no more than the required operations: they advance, they
report fixed guarantees and an estimate, and they never split. Draining repeats the advance.
-/

namespace SplitTraversal

structure Supplied (α : Type u) where
  items : List α
  guarantees : Guarantees
  /-- How far the estimate lies above the number of items. -/
  surplus : Nat
  /-- The order that the sequence reports, if it reports one. -/
  order : Option (Comparator α)

namespace Supplied

def size (s : Supplied α) : Nat := addSizes s.items.length s.surplus

/-- The caller's promise about sizes: when the sequence states `sized`, its estimate is the number of
items that are left, now and after any of them have gone. -/
def HonestSize (s : Supplied α) : Prop :=
  .sized ∈ s.guarantees → ∀ items, items <:+ s.items → size { s with items := items } = items.length

theorem HonestSize.suffix {s : Supplied α} (h : s.HonestSize) {items : List α} (hi : items <:+ s.items) :
    HonestSize { s with items := items } :=
  fun hs rest hr => h hs rest (hr.trans hi)

def advance (visit : Visitor σ α) (acc : σ) (s : Supplied α) : Except σ (σ × Bool) × Supplied α :=
  match s.items with
  | [] => (.ok (acc, false), s)
  | x :: rest => (visit.visited acc x, { s with items := rest })

/-- Visits the items, and says which are left when the visitor raises. The item that it raised on is
lost. -/
def drainItems (visit : Visitor σ α) (acc : σ) : List α → Except σ σ × List α
  | [] => (.ok acc, [])
  | x :: rest =>
      match visit acc x with
      | .ok acc => drainItems visit acc rest
      | .error acc => (.error acc, rest)

def drain (visit : Visitor σ α) (acc : σ) (s : Supplied α) : Except σ σ × Supplied α :=
  (drainItems visit acc s.items).map id fun rest => { s with items := rest }

/-- One advance, or the end of the drain. -/
theorem drain_eq (visit : Visitor σ α) (acc : σ) (s : Supplied α) :
    s.drain visit acc = match s.advance visit acc with
      | (.ok (acc, true), rest) => rest.drain visit acc
      | (.ok (acc, false), rest) => (.ok acc, rest)
      | (.error acc, rest) => (.error acc, rest) := by
  obtain ⟨items, g, k, o⟩ := s
  cases items with
  | nil => rfl
  | cons x rest =>
    simp only [drain, drainItems, advance, Visitor.visited]
    cases visit acc x <;> rfl

section Traversal

variable {s : Supplied α} {visit : Visitor σ α} {acc acc' : σ} {xs : List α}

theorem advance_fst : (s.advance visit acc).1 = visit.first acc s.items := by
  rw [advance]
  split <;> simp [*]

theorem advance_snd : (s.advance visit acc).2 = { s with items := s.items.tail } := by
  obtain ⟨items, g, k, o⟩ := s
  cases items <;> rfl

theorem drainItems_fst : (drainItems visit acc xs).1 = xs.foldlM visit acc := by
  induction xs generalizing acc with
  | nil => rfl
  | cons x xs ih =>
    rw [drainItems]
    cases hv : visit acc x with
    | error e => rw [Visitor.foldlM_cons_error hv]
    | ok acc' => rw [Visitor.foldlM_cons_ok hv, ← ih]

theorem drainItems_suffix : (drainItems visit acc xs).2 <:+ xs := by
  induction xs generalizing acc with
  | nil => exact List.suffix_rfl
  | cons x xs ih =>
    rw [drainItems]
    cases visit acc x with
    | error e => exact List.suffix_cons x xs
    | ok acc' => exact ih.trans (List.suffix_cons x xs)

theorem drainItems_of_ok (h : xs.foldlM visit acc = .ok acc') : (drainItems visit acc xs).2 = [] := by
  induction xs generalizing acc with
  | nil => rfl
  | cons x xs ih =>
    rw [drainItems]
    cases hv : visit acc x with
    | error e =>
      rw [Visitor.foldlM_cons_error hv] at h
      cases h
    | ok acc' =>
      rw [Visitor.foldlM_cons_ok hv] at h
      exact ih h

theorem size_le_size {items : List α} (h : items <:+ s.items) :
    size { s with items := items } ≤ s.size :=
  addSizes_le_addSizes h.length_le (Nat.le_refl _)

theorem drainItems_of_error {k : Nat} {x : α} {e : σ} (hx : xs[k]? = some x)
    (h : (xs.take k).foldlM visit acc = .ok acc') (he : visit acc' x = .error e) :
    (drainItems visit acc xs).2 = xs.drop (k + 1) := by
  induction xs generalizing acc k with
  | nil => simp at hx
  | cons y xs ih =>
    rw [drainItems]
    cases k with
    | zero =>
      obtain rfl : y = x := by simpa using hx
      obtain rfl : acc = acc' := Except.ok.inj h
      rw [he]
      rfl
    | succ k =>
      rw [List.take_succ_cons] at h
      cases hv : visit acc y with
      | error e =>
        rw [Visitor.foldlM_cons_error hv] at h
        cases h
      | ok acc' =>
        rw [Visitor.foldlM_cons_ok hv] at h
        exact ih (by simpa using hx) h

end Traversal

def describe (text : α → String) (s : Supplied α) : String :=
  Text.record "Supplied" [("items", Text.list (s.items.map text))]

end Supplied

end SplitTraversal
