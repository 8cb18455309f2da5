import SplitTraversal.Parallel
import SplitTraversal.Proofs.Sequence.ExactSize

/-!
Estimates when supplied leaves may count too many. An estimate is never too low, no operation raises it,
and a split hands every part of it on: the estimates of the two pieces add up to the one before, where
sums stop at the estimate of an unknown size.
-/

namespace SplitTraversal

namespace Sequence

variable {α : Type u} {s t front : Sequence α}

theorem Counting.split (hc : s.Counting) (hp : s.split.1 = some front) :
    front.Counting ∧ s.split.2.Counting := by
  cases s with
  | range r =>
    obtain ⟨t, _, rfl⟩ := Option.map_eq_some_iff.mp hp
    exact ⟨trivial, trivial⟩
  | built b =>
    obtain ⟨c, _, rfl⟩ := Option.map_eq_some_iff.mp hp
    exact ⟨trivial, trivial⟩
  | buffer q =>
    obtain ⟨t, _, rfl⟩ := Option.map_eq_some_iff.mp hp
    exact ⟨trivial, trivial⟩
  | empty | inline => cases hp
  | supplied | both | firstOnly | secondOnly => cases hc

variable [Numeral α]

theorem min_length_le_size (h : s.WellFormed) : min s.remaining.length unknownSize ≤ s.size := by
  induction s with
  | supplied s =>
    simp only [remaining, size, Supplied.size, addSizes]
    omega
  | both a b o iha ihb =>
    have ha := iha h.1
    have hb := ihb h.2
    simp only [remaining, size, addSizes, List.length_append]
    omega
  | firstOnly a ih => exact ih h
  | secondOnly b o ih => exact ih h
  | _ =>
    have he := Counting.size_eq (by trivial) h
    omega

theorem Counting.size_split (hc : s.Counting) (h : s.WellFormed) (hp : s.split.1 = some front) :
    addSizes front.size s.split.2.size = s.size := by
  obtain ⟨hfront, hrest⟩ := hc.split hp
  have hlen := congrArg List.length (remaining_split h hp)
  rw [List.length_append, ← hfront.size_eq (h.front hp), ← hrest.size_eq h.rest, ← hc.size_eq h] at hlen
  have hle := size_le_unknownSize h
  rw [addSizes_of_le (by omega), hlen]

/-- A split of two parts hands each part's estimate on, and any other split is one of a single part. -/
theorem size_split (h : s.WellFormed) (hp : s.split.1 = some front) :
    addSizes front.size s.split.2.size = s.size := by
  induction s generalizing front with
  | supplied s => cases hp
  | both a b o =>
    cases hp
    rfl
  | firstOnly a ih =>
    obtain ⟨t, ht, rfl⟩ := Option.map_eq_some_iff.mp hp
    have hh := ih h ht
    exact hh
  | secondOnly b o ih =>
    obtain ⟨t, ht, rfl⟩ := Option.map_eq_some_iff.mp hp
    have hh := ih h ht
    exact hh
  | _ => exact Counting.size_split (by trivial) h hp

/-- However often pieces are split again, their estimates add up to that of the whole. -/
theorem reduce_size (h : s.WellFormed) (plan : Schedule) : s.reduce size addSizes plan = s.size := by
  induction plan generalizing s with
  | traverse => rfl
  | split front rest ihf ihr =>
    rw [reduce]
    cases hs : s.split with | mk p t =>
    cases p with
    | none => rw [h.split_whole hs]
    | some p =>
      obtain ⟨hfront, hrest, _⟩ := h.split_some hs
      have hsum := size_split h (congrArg Prod.fst hs)
      rw [hs] at hsum
      simp only [ihf hfront, ihr hrest, hsum]

theorem steps_size_le (h : s.WellFormed) (hst : Relation.ReflTransGen Step s t) : t.size ≤ s.size :=
  (steps_preserve (P := fun t => t.WellFormed ∧ t.size ≤ s.size)
    (fun _ _ hr ht => ⟨hr.wellFormed ht.1, Nat.le_trans (hr.size_le ht.1) ht.2⟩) hst
    ⟨h, Nat.le_refl _⟩).2

/-- Estimates in every state that can arise, whatever the supplied leaves add to theirs. The estimate is
at least the number of elements that advances visit, or that of an unknown size. No operation raises it,
abandoned or not, and so no run of operations does. A split conserves it: the sum of the estimates of
both pieces, stopped at that of an unknown size, is the estimate before, and a sequence that does not
split keeps its own; so the estimates of the pieces of any schedule add up to it. -/
theorem estimates_conserved (h : Reachable Made s) :
    Yields s s.remaining ∧ (s.remaining.length ≤ s.size ∨ s.size = unknownSize) ∧
    (∀ t, Step s t → t.size ≤ s.size) ∧
    (∀ t, Relation.ReflTransGen Step s t → t.size ≤ s.size) ∧
    (∀ front rest, s.split = (some front, rest) → min (front.size + rest.size) unknownSize = s.size) ∧
    (∀ rest, s.split = (none, rest) → rest.size = s.size) ∧
    ∀ plan, s.reduce size addSizes plan = s.size := by
  have hw := h.wellFormed fun _ hm => hm.wellFormed
  refine ⟨yields_remaining hw, ?_, fun t hs => hs.remnant.size_le hw, fun t hst => steps_size_le hw hst,
    fun front rest hs => ?_, fun rest hs => ?_, reduce_size hw⟩
  · have hmin := min_length_le_size hw
    have hmax := size_le_unknownSize hw
    omega
  · have hsum := size_split hw (congrArg Prod.fst hs)
    rwa [hs] at hsum
  · rw [hw.split_whole hs]

/-- Two supplied items that are announced as ten more, and a range behind items whose number is unknown. -/
def inflated : Sequence Int :=
  (supplied ⟨[5, 6], ∅, 10, none⟩).concat
    ((supplied ⟨[8], ∅, unknownSize, none⟩).concat (range ⟨.word32, 0, 3, false⟩))

theorem inflated_reachable : Reachable Made inflated :=
  .concat (.leaf trivial (.supplied _)) (.concat (.leaf trivial (.supplied _)) (.leaf trivial low_made))

/-- The sums are saturated at first. After four elements the estimate is exact, and a split conserves it. -/
theorem estimates_conserved_inflated :
    let s := inflated.next.2.next.2.next.2.next.2
    Reachable Made s ∧ inflated.size = unknownSize ∧ s.size = 2 ∧
      (∃ front rest, s.split = (some front, rest) ∧ min (front.size + rest.size) unknownSize = 2) ∧
      (inflated.drain (Visitor.recordFirst 1) #[]).2.size ≤ unknownSize := by
  have hr : Reachable Made inflated.next.2.next.2.next.2.next.2 :=
    (((inflated_reachable.step .next).step .next).step .next).step .next
  have hh := estimates_conserved hr
  have hstep := (estimates_conserved inflated_reachable).2.2.1
  exact ⟨hr, by decide, by decide, ⟨_, _, rfl, hh.2.2.2.2.1 _ _ rfl⟩,
    hstep _ (.drain (Visitor.recordFirst 1) #[])⟩

end Sequence

end SplitTraversal
