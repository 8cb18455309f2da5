import SplitTraversal.Proofs.Sequence.ExactSize
import SplitTraversal.Sequence.Leaves

/-!
Recursive splitting down to a bound. It ends for every sequence that can arise: estimates need not
shrink when a concatenation splits, but `weight` does. The leaves, in order, owe what the sequence owes,
and without supplied parts no leaf owes more than the bound, or more than one element.
-/

namespace SplitTraversal

namespace Sequence

variable {α : Type u} {s t front rest : Sequence α} {bound depth : Nat} {ls ms : List (Sequence α)}

/-- The recursion on its own: a piece is a leaf when its estimate is within the bound or when it does
not split; otherwise the leaves of its front come before the leaves of its rest. -/
inductive SplitsInto (bound : Nat) : Sequence α → List (Sequence α) → Prop
  | small {s : Sequence α} (hb : s.size ≤ bound) : SplitsInto bound s [s]
  | whole {s t : Sequence α} (hb : bound < s.size) (hs : s.split = (none, t)) : SplitsInto bound s [t]
  | split {s front rest : Sequence α} {ls ms : List (Sequence α)} (hb : bound < s.size)
      (hs : s.split = (some front, rest)) (hf : SplitsInto bound front ls)
      (hr : SplitsInto bound rest ms) : SplitsInto bound s (ls ++ ms)

theorem SplitsInto.unique (hl : SplitsInto bound s ls) (hm : SplitsInto bound s ms) : ls = ms := by
  induction hl generalizing ms with
  | small hb =>
    cases hm with
    | small => rfl
    | whole hb' => omega
    | split hb' => omega
  | whole hb hs =>
    cases hm with
    | small hb' => omega
    | whole _ hs' => simp_all
    | split _ hs' => simp_all
  | split hb hs _ _ ihf ihr =>
    cases hm with
    | small hb' => omega
    | whole _ hs' => simp_all
    | split _ hs' hf' hr' =>
      have he := Prod.mk.inj (hs.symm.trans hs')
      obtain rfl := Option.some.inj he.1
      obtain rfl := he.2
      rw [ihf hf', ihr hr']

variable [Numeral α]

theorem length_lt_of_cut {β : Type v} {xs ys zs : List β} (h : xs ++ ys = zs)
    (hne : xs ≠ [] ∧ ys ≠ []) : xs.length < zs.length ∧ ys.length < zs.length := by
  have hx := List.length_pos_iff.mpr hne.1
  have hy := List.length_pos_iff.mpr hne.2
  rw [← h, List.length_append]
  omega

theorem weight_range (r : Range) : (range r : Sequence α).weight = r.values.length := by
  have hc := count_eq (range r : Sequence α)
  simpa [weight, remaining] using hc

theorem weight_buffer (q : ChunkQueue α) : (buffer q).weight = q.toList.length :=
  count_eq (buffer q)

theorem weight_buffered (q : ChunkQueue α) : (built (.buffered q)).weight = q.toList.length :=
  count_eq (built (.buffered q))

/-- Every split makes progress: both pieces weigh less than the whole. -/
theorem weight_split (h : s.WellFormed) (hp : s.split.1 = some front) :
    front.weight < s.weight ∧ s.split.2.weight < s.weight := by
  induction s generalizing front with
  | range r =>
    obtain ⟨t, ht, rfl⟩ := Option.map_eq_some_iff.mp hp
    have hlen := length_lt_of_cut (Range.values_split h ht) (Range.split_ne_nil h ht)
    simpa [split, weight_range] using hlen
  | empty => cases hp
  | inline s => cases hp
  | built b =>
    cases b with
    | inline s => cases hp
    | buffered q =>
      obtain ⟨c, hc, rfl⟩ := Option.map_eq_some_iff.mp hp
      obtain ⟨t, ht, rfl⟩ := Option.map_eq_some_iff.mp hc
      have hlen := length_lt_of_cut (ChunkQueue.toList_split h.1 ht) (ChunkQueue.split_ne_nil h.1 ht)
      simpa [split, Built.split, weight_buffered] using hlen
  | buffer q =>
    obtain ⟨t, ht, rfl⟩ := Option.map_eq_some_iff.mp hp
    have hlen := length_lt_of_cut (ChunkQueue.toList_split h.1 ht) (ChunkQueue.split_ne_nil h.1 ht)
    simpa [split, weight_buffer] using hlen
  | supplied s => cases hp
  | both a b o =>
    cases hp
    simp only [split, weight]
    omega
  | firstOnly a ih =>
    obtain ⟨t, ht, rfl⟩ := Option.map_eq_some_iff.mp hp
    have hh := ih h ht
    simpa [split, weight] using hh
  | secondOnly b o ih =>
    obtain ⟨t, ht, rfl⟩ := Option.map_eq_some_iff.mp hp
    have hh := ih h ht
    simpa [split, weight] using hh

/-- As many nested splits as the sequence weighs are enough for the recursion to end. -/
theorem splitsInto_leavesWithin (h : s.WellFormed) (hd : s.weight ≤ depth) :
    SplitsInto bound s (leavesWithin bound depth s) := by
  induction depth generalizing s with
  | zero =>
    by_cases hb : s.size ≤ bound
    · exact .small hb
    · cases hp : s.split.1 with
      | none =>
        have hs : s.split = (none, s) := Prod.ext hp (split_none h hp)
        exact .whole (Nat.lt_of_not_le hb) hs
      | some p =>
        have hlt := weight_split h hp
        omega
  | succ depth ih =>
    rw [leavesWithin]
    split
    · rename_i hb
      exact .small hb
    · rename_i hb
      have hb := Nat.lt_of_not_le hb
      cases hs : s.split with | mk p t =>
      cases p with
      | none => exact .whole hb hs
      | some p =>
        obtain ⟨hfront, hrest, _⟩ := h.split_some hs
        have hlt : p.weight < s.weight ∧ t.weight < s.weight := by
          have hh := weight_split h (congrArg Prod.fst hs)
          rwa [hs] at hh
        have hleft := ih hfront (by omega)
        have hright := ih hrest (by omega)
        exact .split hb hs hleft hright

theorem splitsInto_iff (h : s.WellFormed) : SplitsInto bound s ls ↔ ls = s.leaves bound := by
  have hleaves : SplitsInto bound s (s.leaves bound) := splitsInto_leavesWithin h (Nat.le_refl _)
  constructor
  · intro hl
    exact hl.unique hleaves
  · rintro rfl
    exact hleaves

theorem SplitsInto.steps (hl : SplitsInto bound s ls) :
    ∀ l ∈ ls, Relation.ReflTransGen Step s l := by
  induction hl with
  | small hb =>
    intro l hm
    obtain rfl := List.mem_singleton.mp hm
    exact .refl
  | @whole s t hb hs =>
    intro l hm
    have hrest := Step.rest (s := s)
    rw [hs] at hrest
    obtain rfl := List.mem_singleton.mp hm
    exact .single hrest
  | split hb hs _ _ ihf ihr =>
    intro l hm
    obtain ⟨hfront, hrest⟩ := Step.of_split hs
    obtain hm | hm := List.mem_append.mp hm
    · exact .head hfront (ihf l hm)
    · exact .head hrest (ihr l hm)

theorem SplitsInto.size_le_or (hl : SplitsInto bound s ls) (h : s.WellFormed) :
    ∀ l ∈ ls, l.size ≤ bound ∨ l.split.1 = none := by
  induction hl with
  | small hb =>
    intro l hm
    obtain rfl := List.mem_singleton.mp hm
    exact .inl hb
  | whole hb hs =>
    intro l hm
    obtain rfl := h.split_whole hs
    obtain rfl := List.mem_singleton.mp hm
    exact .inr (congrArg Prod.fst hs)
  | split hb hs _ _ ihf ihr =>
    intro l hm
    obtain ⟨hfront, hrest, _⟩ := h.split_some hs
    obtain hm | hm := List.mem_append.mp hm
    · exact ihf hfront l hm
    · exact ihr hrest l hm

theorem SplitsInto.remaining (hl : SplitsInto bound s ls) (h : s.WellFormed) :
    ls.flatMap remaining = s.remaining := by
  induction hl with
  | small hb => simp
  | whole hb hs =>
    obtain rfl := h.split_whole hs
    simp
  | split hb hs _ _ ihf ihr =>
    obtain ⟨hfront, hrest, hcut⟩ := h.split_some hs
    rw [List.flatMap_append, ihf hfront, ihr hrest, hcut]

theorem SplitsInto.wellFormed (hl : SplitsInto bound s ls) (h : s.WellFormed) : ∀ l ∈ ls, l.WellFormed :=
  fun l hm => steps_preserve (fun _ _ hr => hr.wellFormed) (hl.steps l hm) h

theorem SplitsInto.drained (hl : SplitsInto bound s ls) (h : s.WellFormed) :
    ls.flatMap (fun l => l.toArray.toList) = s.remaining := by
  have hleaf : ∀ l ∈ ls, l.toArray.toList = l.remaining := by
    intro l hm
    rw [toArray_eq (hl.wellFormed h l hm)]
  rw [List.flatMap_def, List.map_congr_left hleaf, ← List.flatMap_def, hl.remaining h]

/-- Without supplied parts an estimate is exact until it saturates. -/
theorem size_eq_min (h : s.WellFormed) (hn : s.EachSupplied fun _ => False) :
    s.size = min s.remaining.length unknownSize := by
  have hmin {t : Sequence α} (hc : t.Counting) (ht : t.WellFormed) :
      t.size = min t.remaining.length unknownSize := by
    have hle := size_le_unknownSize ht
    have he := hc.size_eq ht
    omega
  induction s with
  | supplied s => exact hn.elim
  | both a b o iha ihb =>
    rw [size, remaining, List.length_append, addSizes, iha h.1 hn.1, ihb h.2 hn.2]
    omega
  | firstOnly a ih => exact ih h hn
  | secondOnly b o ih => exact ih h hn
  | _ => exact hmin (by trivial) h

theorem length_remaining_of_split_none (h : s.WellFormed) (hn : s.EachSupplied fun _ => False)
    (hs : s.split.1 = none) : s.remaining.length ≤ 1 := by
  have hinline (i : Inline α) : i.toList.length ≤ 1 := by
    obtain ⟨element⟩ := i
    cases element <;> simp [Inline.toList]
  induction s with
  | range r =>
    rw [remaining, List.length_map]
    exact (Range.WellFormed.split_eq_none_iff h).mp (Option.map_eq_none_iff.mp hs)
  | empty => exact Nat.zero_le 1
  | inline i => exact hinline i
  | built b =>
    cases b with
    | inline i => exact hinline i
    | buffered q =>
      have hq : q.split.1 = none := by simpa [split, Built.split] using hs
      exact h.1.split_eq_none_iff.mp hq
  | buffer q => exact h.1.split_eq_none_iff.mp (Option.map_eq_none_iff.mp hs)
  | supplied s => exact hn.elim
  | both a b o => cases hs
  | firstOnly a ih => exact ih h hn (Option.map_eq_none_iff.mp hs)
  | secondOnly b o ih => exact ih h hn (Option.map_eq_none_iff.mp hs)

theorem SplitsInto.length_le_one (hl : SplitsInto 0 s ls) (h : s.WellFormed)
    (hn : s.EachSupplied fun _ => False) : ∀ l ∈ ls, l.remaining.length ≤ 1 := by
  intro l hm
  have hw := hl.wellFormed h l hm
  have hln : l.EachSupplied fun _ => False :=
    steps_preserve (fun _ _ hr => hr.eachSupplied fun _ _ hp _ => hp) (hl.steps l hm) hn
  obtain hsize | hs := hl.size_le_or h l hm
  · have he := size_eq_min hw hln
    unfold unknownSize at he
    omega
  · exact length_remaining_of_split_none hw hln hs

/-- Recursive splitting, of every sequence that can arise and for every bound. It ends, with `leaves`
as its one result; the leaves drained in order give what a drain of the sequence gives; each leaf is
within the bound or does not split; and without supplied parts, below the estimate of an unknown size,
no leaf owes more elements than the bound, or than one. -/
theorem leaves_reach_bound (h : Reachable Made s) (bound : Nat) :
    (∀ ls, SplitsInto bound s ls ↔ ls = s.leaves bound) ∧
    (s.leaves bound).flatMap (fun l => l.toArray.toList) = s.remaining ∧
    s.toArray.toList = s.remaining ∧ Yields s s.remaining ∧
    (∀ l ∈ s.leaves bound, l.size ≤ bound ∨ l.split.1 = none) ∧
    (s.EachSupplied (fun _ => False) → bound < unknownSize →
      ∀ l ∈ s.leaves bound, l.remaining.length ≤ max bound 1) := by
  have hw := h.wellFormed fun _ hm => hm.wellFormed
  have hl : SplitsInto bound s (s.leaves bound) := (splitsInto_iff hw).mpr rfl
  have hleaf : ∀ l ∈ s.leaves bound, l.WellFormed := fun l hm =>
    steps_preserve (fun _ _ hr => hr.wellFormed) (hl.steps l hm) hw
  have hdrained : (s.leaves bound).flatMap (fun l => l.toArray.toList) =
      (s.leaves bound).flatMap remaining := by
    rw [List.flatMap_def, List.flatMap_def]
    congr 1
    apply List.map_congr_left
    intro l hm
    rw [toArray_eq (hleaf l hm)]
  refine ⟨fun ls => splitsInto_iff hw, hdrained.trans (hl.remaining hw), ?_, yields_remaining hw,
    hl.size_le_or hw, ?_⟩
  · rw [toArray_eq hw]
  · intro hn hbound l hm
    have hln : l.EachSupplied fun _ => False :=
      steps_preserve (fun _ _ hr => hr.eachSupplied fun _ _ hp _ => hp) (hl.steps l hm) hn
    obtain hsize | hs := hl.size_le_or hw l hm
    · have he := size_eq_min (hleaf l hm) hln
      omega
    · have hone := length_remaining_of_split_none (hleaf l hm) hln hs
      omega

/-- An empty sequence before two ranges: its first split yields a piece that estimates as much as the
whole. -/
def hollow : Sequence Int :=
  empty.concat ((range ⟨.word32, 0, 3, false⟩).concat (range ⟨.word32, 10, 11, true⟩))

theorem hollow_reachable : Reachable Made hollow :=
  .concat (.leaf trivial .empty) (.concat (.leaf trivial low_made) (.leaf trivial high_made))

theorem leaves_reach_bound_hollow :
    Reachable Made hollow.next.2 ∧ SplitsInto 1 hollow.next.2 (hollow.next.2.leaves 1) ∧
      (hollow.next.2.leaves 1).map remaining = [[1], [2], [10], [11]] ∧
      ((hollow.next.2.leaves 1).get ⟨3, by decide⟩).remaining.length ≤ 1 := by
  have hr : Reachable Made hollow.next.2 := hollow_reachable.step .next
  have hh := leaves_reach_bound hr 1
  have hn : hollow.next.2.EachSupplied fun _ => False := ⟨trivial, trivial⟩
  have hlast := hh.2.2.2.2.2 hn (by decide) _ (List.get_mem (hollow.next.2.leaves 1) ⟨3, by decide⟩)
  exact ⟨hr, (hh.1 _).mpr rfl, by decide, hlast⟩

end Sequence

end SplitTraversal
