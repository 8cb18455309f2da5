/-!
Visitors. A traversal hands each element to a visitor together with the visitor's state. The visitor
returns, or it raises and so abandons the traversal; either way its state survives.
-/

namespace SplitTraversal

/-- Takes an element into the state: `ok` when it returns, `error` when it raises. -/
abbrev Visitor (σ : Type u) (α : Type v) := σ → α → Except σ σ

def Visitor.state : Except σ σ → σ
  | .ok acc => acc
  | .error acc => acc

@[simp] theorem Visitor.state_ok (acc : σ) : state (.ok acc) = acc := rfl

def Visitor.raised : Except ε σ → Bool
  | .ok _ => false
  | .error _ => true

namespace Visitor

/-- One visit within an advance: when it returns, the advance reports an element. -/
def visited (visit : Visitor σ α) (acc : σ) (x : α) : Except σ (σ × Bool) :=
  match visit acc x with
  | .ok acc => .ok (acc, true)
  | .error acc => .error acc

@[simp] theorem visited_ne (visit : Visitor σ α) (acc acc' : σ) (x : α) :
    visit.visited acc x ≠ .ok (acc', false) := by
  rw [visited]
  split <;> simp

/-- Hands over the first of the elements, if there is one, as an advance does. -/
def first (visit : Visitor σ α) (acc : σ) : List α → Except σ (σ × Bool)
  | [] => .ok (acc, false)
  | x :: _ => visit.visited acc x

@[simp] theorem first_nil (visit : Visitor σ α) (acc : σ) : visit.first acc [] = .ok (acc, false) := rfl
@[simp] theorem first_cons (visit : Visitor σ α) (acc : σ) (x : α) (xs : List α) :
    visit.first acc (x :: xs) = visit.visited acc x := rfl

@[simp] theorem first_map (f : β → α) (visit : Visitor σ α) (acc : σ) (xs : List β) :
    visit.first acc (xs.map f) = first (fun acc x => visit acc (f x)) acc xs := by
  cases xs <;> rfl

section Runs

variable {visit : Visitor σ α} {acc acc' : σ} {x : α} {xs ys : List α}

theorem foldlM_cons_ok (h : visit acc x = .ok acc') :
    (x :: xs).foldlM visit acc = xs.foldlM visit acc' := by
  rw [List.foldlM_cons, h]
  rfl

theorem foldlM_cons_error (h : visit acc x = .error acc') :
    (x :: xs).foldlM visit acc = .error acc' := by
  rw [List.foldlM_cons, h]
  rfl

theorem foldlM_append_ok (h : xs.foldlM visit acc = .ok acc') :
    (xs ++ ys).foldlM visit acc = ys.foldlM visit acc' := by
  rw [List.foldlM_append, h]
  rfl

theorem foldlM_append_error (h : xs.foldlM visit acc = .error acc') :
    (xs ++ ys).foldlM visit acc = .error acc' := by
  rw [List.foldlM_append, h]
  rfl

theorem foldlM_append_eq_ok : (xs ++ ys).foldlM visit acc = .ok acc' ↔
    ∃ acc₁, xs.foldlM visit acc = .ok acc₁ ∧ ys.foldlM visit acc₁ = .ok acc' := by
  cases h : xs.foldlM visit acc with
  | error e => simp [foldlM_append_error h]
  | ok acc₁ => simp [foldlM_append_ok h]

theorem foldlM_of_raise {k : Nat} {e : σ} (hx : xs[k]? = some x)
    (hok : (xs.take k).foldlM visit acc = .ok acc') (he : visit acc' x = .error e) :
    xs.foldlM visit acc = .error e := by
  obtain ⟨hk, rfl⟩ := List.getElem?_eq_some_iff.mp hx
  rw [← List.take_append_drop k xs, foldlM_append_ok hok, List.drop_eq_getElem_cons hk]
  exact foldlM_cons_error he

end Runs

def always (f : σ → α → σ) : Visitor σ α := fun acc x => .ok (f acc x)

@[simp] theorem foldlM_always (f : σ → α → σ) (acc : σ) (xs : List α) :
    xs.foldlM (always f) acc = .ok (xs.foldl f acc) := by
  induction xs generalizing acc with
  | nil => rfl
  | cons x xs ih => exact ih (f acc x)

def record : Visitor (Array α) α := always Array.push

/-- Records the first `k` elements and raises on the next one, which it does not record. -/
def recordFirst (k : Nat) : Visitor (Array α) α := fun seen x =>
  if seen.size < k then .ok (seen.push x) else .error seen

theorem foldlM_recordFirst (k : Nat) (seen xs : List α) (h : seen.length + xs.length ≤ k) :
    xs.foldlM (recordFirst k) seen.toArray = .ok (seen ++ xs).toArray := by
  induction xs generalizing seen with
  | nil => simp [pure, Except.pure]
  | cons x xs ih =>
    rw [List.length_cons] at h
    have hv : recordFirst k seen.toArray x = .ok (seen ++ [x]).toArray := by
      have hlt : seen.length < k := by omega
      simp [recordFirst, hlt]
    have hh := ih (seen ++ [x]) (by simp; omega)
    rw [foldlM_cons_ok hv, hh]
    simp

def refuse : Visitor σ α := fun acc _ => .error acc

end Visitor

end SplitTraversal
