import SplitTraversal.Element
import SplitTraversal.Proofs.Sequence.Conservation

/-!
Order. A concatenation with two parts states neither `sorted` nor `distinct` and reports no order; with
one part it answers as that part does. So what is stated about order is what a leaf states, and it is
true as long as the supplied leaves tell the truth, in every state of every piece.
-/

namespace SplitTraversal

variable {α : Type u}

def Comparator.Ascending [Ord α] (order : Comparator α) (xs : List α) : Prop :=
  xs.Pairwise fun x y => order.compare x y ≠ .gt

instance [Ord α] (order : Comparator α) (xs : List α) : Decidable (order.Ascending xs) :=
  inferInstanceAs (Decidable (xs.Pairwise fun x y => order.compare x y ≠ .gt))

def Distinct [BEq α] (xs : List α) : Prop := xs.Pairwise fun x y => (x == y) = false

instance [BEq α] (xs : List α) : Decidable (Distinct xs) :=
  inferInstanceAs (Decidable (xs.Pairwise fun x y => (x == y) = false))

/-- Integers keep their order and their differences when they are read as elements. -/
def Numeral.Faithful (α : Type u) [Numeral α] [Ord α] [BEq α] : Prop :=
  ∀ i j : Int, i < j →
    compare (Numeral.ofInt i : α) (Numeral.ofInt j) ≠ .gt ∧ ((Numeral.ofInt i : α) == Numeral.ofInt j) = false

theorem Numeral.faithful_int : Numeral.Faithful Int := by
  intro i j hij
  refine ⟨?_, ?_⟩
  · have hlt : compare i j = .lt := Int.compare_eq_lt.mpr hij
    intro hgt
    cases hlt.symm.trans hgt
  · exact beq_false_of_ne (Int.ne_of_lt hij)

/-- The caller's promise about order: `sorted` is stated exactly when an order is reported, the items
ascend in that order, and they are different when `distinct` is stated. -/
structure Supplied.HonestOrder [Ord α] [BEq α] (s : Supplied α) : Prop where
  sorted_iff : Flag.sorted ∈ s.guarantees ↔ s.order.isSome
  ascending : ∀ order, s.order = some order → order.Ascending s.items
  distinct : Flag.distinct ∈ s.guarantees → Distinct s.items

theorem Supplied.HonestOrder.suffix [Ord α] [BEq α] {s : Supplied α} (h : s.HonestOrder) {items : List α}
    (hi : items <:+ s.items) : Supplied.HonestOrder { s with items := items } where
  sorted_iff := h.sorted_iff
  ascending order ho := (h.ascending order ho).sublist hi.sublist
  distinct hd := (h.distinct hd).sublist hi.sublist

namespace Sequence

section Resolution

variable {s a b : Sequence α} {o : Bool}

/-- The sequence that is found by following single parts down from concatenations. -/
def core : Sequence α → Sequence α
  | firstOnly a => a.core
  | secondOnly b _ => b.core
  | s => s

theorem comparator_eq_unresolved_iff :
    s.comparator = .error .unresolved ↔ ∃ a b o, s.core = both a b o := by
  induction s with
  | both a b o => exact ⟨fun _ => ⟨a, b, o, rfl⟩, fun _ => rfl⟩
  | firstOnly a ih => exact ih
  | secondOnly b o ih => exact ih
  | supplied s => cases ho : s.order <;> simp [comparator, core, ho]
  | _ => simp [comparator, core]

end Resolution

variable [Numeral α] [Ord α] [BEq α] {s t : Sequence α}

/-- Supplied leaves keep their promise about order, and ranges hand out integers that keep theirs. -/
def HonestOrder : Sequence α → Prop
  | range _ => Numeral.Faithful α
  | supplied s => s.HonestOrder
  | both a b _ => a.HonestOrder ∧ b.HonestOrder
  | firstOnly a => a.HonestOrder
  | secondOnly b _ => b.HonestOrder
  | _ => True

theorem Remnant.honestOrder (hr : Remnant s t) (h : s.HonestOrder) : t.HonestOrder := by
  induction hr with
  | same | range => exact h
  | inline | builtInline | buffered | buffer => trivial
  | supplied hi => exact Supplied.HonestOrder.suffix h hi
  | both _ _ iha ihb => exact ⟨iha h.1, ihb h.2⟩
  | front => exact h.1
  | back _ ihb => exact ihb h.2
  | firstOnly _ ih => exact ih h
  | secondOnly _ ih => exact ih h

/-- What the sequence states about order is true of the elements that it owes. -/
structure OrderTold (s : Sequence α) : Prop where
  ascending : Flag.sorted ∈ s.guarantees →
    ∃ order, s.comparator = .ok order ∧ order.Ascending s.remaining
  distinct : Flag.distinct ∈ s.guarantees → Distinct s.remaining
  comparator_iff : (∃ order, s.comparator = .ok order) ↔ Flag.sorted ∈ s.guarantees

theorem OrderTold.of_unstated (hs : Flag.sorted ∉ s.guarantees) (hd : Flag.distinct ∉ s.guarantees)
    (ho : ∀ order, s.comparator ≠ .ok order) : s.OrderTold where
  ascending h := absurd h hs
  distinct h := absurd h hd
  comparator_iff := by
    constructor
    · rintro ⟨order, h⟩
      exact absurd h (ho order)
    · intro h
      exact absurd h hs

theorem HonestOrder.told (h : s.HonestOrder) : s.OrderTold := by
  induction s with
  | range r =>
    have hlt := r.pairwise_values
    refine ⟨fun _ => ⟨.natural, rfl, ?_⟩, fun _ => ?_, fun _ => rfl, fun _ => ⟨.natural, rfl⟩⟩
    · rw [Comparator.Ascending, remaining, List.pairwise_map]
      exact hlt.imp fun hij => (h _ _ hij).1
    · rw [Distinct, remaining, List.pairwise_map]
      exact hlt.imp fun hij => (h _ _ hij).2
  | supplied i =>
    have hok : (∃ order, (supplied i).comparator = .ok order) ↔ Flag.sorted ∈ i.guarantees := by
      rw [h.sorted_iff]
      cases ho : i.order <;> simp [comparator, ho]
    refine ⟨fun hs => ?_, h.distinct, hok⟩
    obtain ⟨order, ho⟩ := Option.isSome_iff_exists.mp (h.sorted_iff.mp hs)
    exact ⟨order, by simp [comparator, ho], h.ascending order ho⟩
  | both a b o =>
    -- The parts may be sorted each, but nothing is known across their border.
    have hlost {f : Flag} (hf : f = .distinct ∨ f = .sorted) : f ∉ (both a b o).guarantees :=
      fun h => (mem_both.mp h).2.2 (mem_lostByConcat.mpr (.inl hf))
    exact .of_unstated (hlost (.inr rfl)) (hlost (.inl rfl)) (by simp [comparator])
  | firstOnly a ih =>
    have hh := ih h
    exact ⟨hh.ascending, hh.distinct, hh.comparator_iff⟩
  | secondOnly b o ih =>
    have hh := ih h
    exact ⟨hh.ascending, hh.distinct, hh.comparator_iff⟩
  | built b =>
    cases b <;> refine .of_unstated ?_ ?_ ?_ <;>
      simp [guarantees, Built.guarantees, Inline.guarantees, ChunkQueue.guarantees, comparator]
  | _ =>
    refine .of_unstated ?_ ?_ ?_ <;>
      simp [guarantees, Inline.guarantees, ChunkQueue.guarantees, comparator]

/-- What is said about order is true. In every state that can arise from made leaves, the supplied ones
among them honest about order: a sequence that states `sorted` reports an order in which the elements
that advances visit ascend, one that states `distinct` owes no two equal elements, and an order is
reported exactly when `sorted` is stated. Honest or not, the order of a sequence is unresolved exactly
when following single parts down ends at a concatenation with both. -/
theorem order_truthful (s : Sequence α) :
    (Reachable (fun l => Made l ∧ l.HonestOrder) s →
      Yields s s.remaining ∧
      (Flag.sorted ∈ s.guarantees →
        ∃ order, s.comparator = .ok order ∧ order.Ascending s.remaining) ∧
      (Flag.distinct ∈ s.guarantees → Distinct s.remaining) ∧
      ((∃ order, s.comparator = .ok order) ↔ Flag.sorted ∈ s.guarantees)) ∧
    (s.comparator = .error .unresolved ↔ ∃ a b o, s.core = both a b o) := by
  refine ⟨fun hr => ?_, comparator_eq_unresolved_iff⟩
  have hw := hr.wellFormed fun _ hp => hp.1.wellFormed
  have h : s.HonestOrder :=
    hr.holds (fun _ _ hp => hp.2) (fun _ _ => And.intro) fun _ _ hrem => hrem.honestOrder
  have hh := h.told
  exact ⟨yields_remaining hw, hh.ascending, hh.distinct, hh.comparator_iff⟩

def turning : Sequence Int :=
  (supplied ⟨[7, 5], .ofList [.sorted, .distinct], 0, some (.custom fun x y => compare y x)⟩).concat
    (range ⟨.word32, 0, 3, false⟩)

theorem turning_reachable : Reachable (fun l => Made l ∧ l.HonestOrder) turning := by
  refine .concat (.leaf trivial ⟨.supplied _, by decide, ?_, fun _ => by decide⟩)
    (.leaf trivial ⟨low_made, Numeral.faithful_int⟩)
  rintro order ⟨⟩
  decide

/-- The order is unresolved at first; once the items are gone the range is sorted in the natural order. -/
theorem order_truthful_turning :
    let s := turning.next.2.next.2.next.2
    turning.comparator = .error .unresolved ∧
      Reachable (fun l => Made l ∧ l.HonestOrder) s ∧ Flag.sorted ∈ s.guarantees ∧
      (∃ order, s.comparator = .ok order ∧ order.Ascending [1, 2]) ∧ Distinct ([1, 2] : List Int) := by
  have hr : Reachable _ turning.next.2.next.2.next.2 :=
    ((turning_reachable.step .next).step .next).step .next
  have hs : Flag.sorted ∈ turning.next.2.next.2.next.2.guarantees := by decide
  have hh := (order_truthful turning.next.2.next.2.next.2).1 hr
  exact ⟨(order_truthful turning).2.mpr ⟨_, _, _, rfl⟩, hr, hs, hh.2.1 hs, hh.2.2.1 (by decide)⟩

end Sequence

end SplitTraversal
