import SplitTraversal.Proofs.Range.Arithmetic

/-!
The shape of a split. A range of two integers or more is cut behind as many integers as `splitPoint` says,
and only the rest keeps the bound and the pending endpoint; a smaller range stays whole.
-/

namespace SplitTraversal

namespace Range

variable {r front rest : Range}

/-- `r` is cut into a front and a rest. Fewer than 2²⁴ integers are halved, and of more the front gets an
eighth. -/
structure Cut (r front rest : Range) : Prop where
  front_eq : front = ⟨r.width, r.cursor, rest.cursor, false⟩
  rest_eq : rest = ⟨r.width, front.bound, r.bound, r.pending⟩
  length_front : front.values.length =
    if r.values.length < 16777216 then r.values.length / 2 else r.values.length / 8
  append_eq : front.values ++ rest.values = r.values
  front_ne_nil : front.values ≠ []
  rest_ne_nil : rest.values ≠ []
  length_le : front.values.length ≤ rest.values.length
  /-- The halves of a small range differ by one integer at most. -/
  length_rest_le : r.values.length < 16777216 → rest.values.length ≤ front.values.length + 1
  front_lt_rest : ∀ i ∈ front.values, ∀ j ∈ rest.values, i < j
  disjoint : ∀ i ∈ front.values, i ∉ rest.values

theorem splitPoint_length (r : Range) : splitPoint r.values.length =
    if r.values.length < 16777216 then r.values.length / 2 else r.values.length / 8 := by
  unfold splitPoint halvingLimit largeRatio
  split <;> rfl

theorem WellFormed.split_fields (h : r.WellFormed) (hp : r.split.1 = some front) :
    front = ⟨r.width, r.cursor, r.split.2.cursor, false⟩ ∧
      r.split.2 = ⟨r.width, front.bound, r.bound, r.pending⟩ := by
  rw [split_eq h] at hp ⊢
  split at hp
  · cases hp
  · obtain rfl := Option.some.inj hp
    rw [if_neg ‹_›]
    exact ⟨rfl, rfl⟩

theorem WellFormed.front_lt_rest (h : r.WellFormed) (hp : r.split.1 = some front) :
    ∀ i ∈ front.values, ∀ j ∈ r.split.2.values, i < j := by
  have hlt := r.pairwise_values
  rw [← values_split h hp] at hlt
  exact (List.pairwise_append.mp hlt).2.2

theorem WellFormed.cut (h : r.WellFormed) (hp : r.split.1 = some front) : Cut r front r.split.2 := by
  obtain ⟨hfront, hrest⟩ := h.split_fields hp
  obtain ⟨hne, hne'⟩ := split_ne_nil h hp
  have hcut := values_split h hp
  have hsum := congrArg List.length hcut
  have hlen := (h.length_front hp).trans r.splitPoint_length
  have hlt := h.front_lt_rest hp
  rw [List.length_append] at hsum
  refine ⟨hfront, hrest, hlen, hcut, hne, hne', ?_, fun hsmall => ?_, hlt, fun i hi hj => ?_⟩
  · split at hlen <;> omega
  · rw [if_pos hsmall] at hlen
    omega
  · exact absurd (hlt i hi i hj) (Int.lt_irrefl i)

/-- Splits, of every range that can arise. A range of at most one integer is refused and stays as it is;
any other is cut. -/
theorem split_shape (h : Reachable r) :
    (r.split = (none, r) ↔ r.values.length ≤ 1) ∧ (r.split.1 = none ↔ r.values.length ≤ 1) ∧
    (1 < r.values.length → ∃ front rest, r.split = (some front, rest) ∧ Cut r front rest) := by
  have hw := h.wellFormed
  refine ⟨⟨fun hs => ?_, fun hs => ?_⟩, hw.split_eq_none_iff, fun hs => ?_⟩
  · exact hw.split_eq_none_iff.mp (congrArg Prod.fst hs)
  · have hn := hw.split_eq_none_iff.mpr hs
    exact Prod.ext hn (split_none hw hn)
  · cases hp : r.split.1 with
    | none => exact absurd (hw.split_eq_none_iff.mp hp) (Nat.not_le_of_lt hs)
    | some front => exact ⟨front, r.split.2, Prod.ext hp rfl, hw.cut hp⟩

theorem split_shape_threshold :
    let r := ((⟨.word32, 0, 16777216, true⟩ : Range).advance Visitor.refuse ()).2
    Reachable r ∧ r.values.length = 16777216 ∧
      Cut r ⟨.word32, 1, 2097153, false⟩ ⟨.word32, 2097153, 16777216, true⟩ ∧
      Reachable ⟨.word32, 0, 0, true⟩ ∧
      (⟨.word32, 0, 0, true⟩ : Range).split = (none, ⟨.word32, 0, 0, true⟩) := by
  have hfits : Width.word32.Fits 0 := by decide
  have hr : Reachable ((⟨.word32, 0, 16777216, true⟩ : Range).advance Visitor.refuse ()).2 :=
    .step (.closed hfits (by decide : Width.word32.Fits 16777216) rfl) (.advance Visitor.refuse ())
  have hlast : Reachable ⟨.word32, 0, 0, true⟩ := .closed hfits hfits rfl
  have hlen : ((⟨.word32, 0, 16777216, true⟩ : Range).advance Visitor.refuse ()).2.values.length = 16777216 := by
    rw [length_values]
    decide
  obtain ⟨front, rest, hs, hcut⟩ := (split_shape hr).2.2 (by rw [hlen]; decide)
  have he : ((⟨.word32, 0, 16777216, true⟩ : Range).advance Visitor.refuse ()).2.split =
      (some ⟨.word32, 1, 2097153, false⟩, ⟨.word32, 2097153, 16777216, true⟩) := by decide
  obtain ⟨hfront, rfl⟩ := Prod.mk.inj (hs.symm.trans he)
  obtain rfl := Option.some.inj hfront
  exact ⟨hr, hlen, hcut, hlast, (split_shape hlast).1.mpr (by decide)⟩

end Range

end SplitTraversal
