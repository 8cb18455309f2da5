import Mathlib.Algebra.Ring.Int.Defs
import SplitTraversal.Proofs.Sequence.Conservation
import SplitTraversal.Session.Run

/-!
Parallel traversal equals sequential traversal. However a schedule cuts a sequence into pieces, the
pieces in order owe what the sequence owes, so results that are joined by a monoid do not depend on the
schedule.
-/

namespace SplitTraversal

theorem foldl_append_op {α : Type u} {β : Type v} {op : β → β → β} {one : β} [Std.Associative op]
    [Std.LawfulIdentity op one] (image : α → β) (xs ys : List α) :
    op (xs.foldl (fun acc x => op acc (image x)) one) (ys.foldl (fun acc x => op acc (image x)) one) =
      (xs ++ ys).foldl (fun acc x => op acc (image x)) one := by
  have hmap (zs : List α) (acc : β) :
      zs.foldl (fun acc x => op acc (image x)) acc = (zs.map image).foldl op acc :=
    List.foldl_map.symm
  rw [hmap, hmap, hmap, List.map_append, List.foldl_append]
  generalize (xs.map image).foldl op one = front
  calc
    op front ((ys.map image).foldl op one) = (ys.map image).foldl op (op front one) :=
      List.foldl_assoc.symm
    _ = (ys.map image).foldl op front :=
      congrArg (fun acc => (ys.map image).foldl op acc) (Std.LawfulRightIdentity.right_id front)

/-- Of `xs` the elements `given` have been handed over and `left` are left, to a receiver that is asked before
each element whether it is full and answers `full i` after `i` elements. -/
structure LongestPrefix {α : Type u} (full : Nat → Bool) (xs given left : List α) : Prop where
  append_eq : given ++ left = xs
  of_lt : ∀ i < given.length, full i = false
  of_left : left ≠ [] → full given.length = true

namespace LongestPrefix

variable {α : Type u} {full : Nat → Bool} {x : α} {xs given left : List α}

theorem nil (full : Nat → Bool) : LongestPrefix full ([] : List α) [] [] where
  append_eq := rfl
  of_lt := by simp
  of_left := by simp

theorem of_full (h : full 0 = true) : LongestPrefix full xs [] xs where
  append_eq := rfl
  of_lt := by simp
  of_left _ := h

theorem cons (h0 : full 0 = false) (h : LongestPrefix (fun i => full (i + 1)) xs given left) :
    LongestPrefix full (x :: xs) (x :: given) left where
  append_eq := congrArg (x :: ·) h.append_eq
  of_lt i hi := by
    cases i with
    | zero => exact h0
    | succ i => exact h.of_lt i (Nat.lt_of_succ_lt_succ hi)
  of_left := h.of_left

theorem eq_of_open (h : LongestPrefix full xs given left) (hopen : ∀ i, full i = false) : given = xs := by
  have hleft : left = [] := by
    by_contra hne
    exact Bool.false_ne_true ((hopen _).symm.trans (h.of_left hne))
  rw [← h.append_eq, hleft, List.append_nil]

end LongestPrefix

namespace Sequence

section Schedules

variable {α : Type u} [Numeral α] {β : Type v} {s : Sequence α}

/-- The receiver gets the longest prefix that it allows, and what is left lies behind it. -/
theorem feedWithin_longest (h : s.WellFormed) (full : β → Bool) (consume : β → α → β) (acc : β) {fuel : Nat}
    (hfuel : s.remaining.length < fuel) :
    ∃ given, (feedWithin full consume fuel acc s).1 = given.foldl consume acc ∧
      LongestPrefix (fun i => full ((s.remaining.take i).foldl consume acc)) s.remaining given
        (feedWithin full consume fuel acc s).2.remaining := by
  induction fuel generalizing s acc with
  | zero => cases hfuel
  | succ fuel ih =>
    by_cases hfull : full acc = true
    · refine ⟨[], by simp [feedWithin, hfull], ?_⟩
      simpa [feedWithin, hfull] using LongestPrefix.of_full hfull
    · cases hn : s.next with | mk x t =>
      cases x with
      | none =>
        obtain ⟨-, hnil, htail⟩ := h.of_next_none hn
        refine ⟨[], by simp [feedWithin, hfull, hn], ?_⟩
        simpa [feedWithin, hfull, hn, hnil, htail] using LongestPrefix.nil _
      | some y =>
        obtain ⟨ht, hr⟩ := h.of_next_some hn
        rw [hr] at hfuel ⊢
        obtain ⟨given, hgot, hlong⟩ := ih ht (consume acc y) (Nat.lt_of_succ_lt_succ hfuel)
        refine ⟨y :: given, by simpa [feedWithin, hfull, hn] using hgot, ?_⟩
        refine .cons (by simpa using hfull) ?_
        simpa [feedWithin, hfull, hn] using hlong

theorem feed_longest (h : s.WellFormed) (full : β → Bool) (consume : β → α → β) (acc : β) :
    ∃ given, (s.feed full consume acc).1 = given.foldl consume acc ∧
      LongestPrefix (fun i => full ((s.remaining.take i).foldl consume acc)) s.remaining given
        (s.feed full consume acc).2.remaining :=
  feedWithin_longest h full consume acc (by rw [count_eq]; exact Nat.lt_succ_self _)

theorem feed_fst (h : s.WellFormed) (consume : β → α → β) (acc : β) :
    (s.feed (fun _ => false) consume acc).1 = s.remaining.foldl consume acc := by
  obtain ⟨given, hgot, hlong⟩ := feed_longest h (fun _ => false) consume acc
  rw [hgot, hlong.eq_of_open fun _ => rfl]

/-- A result that depends on the elements of a piece only, and that is joined as lists are appended,
is the same for every schedule. -/
theorem reduce_eq {piece : Sequence α → β} {join : β → β → β} {result : List α → β}
    (hpiece : ∀ t : Sequence α, t.WellFormed → piece t = result t.remaining)
    (hjoin : ∀ xs ys, join (result xs) (result ys) = result (xs ++ ys)) (plan : Schedule)
    (h : s.WellFormed) : s.reduce piece join plan = result s.remaining := by
  induction plan generalizing s with
  | traverse => exact hpiece s h
  | split front rest ihf ihr =>
    rw [reduce]
    cases hs : s.split with | mk p t =>
    cases p with
    | none =>
      obtain rfl := h.split_whole hs
      exact hpiece _ h
    | some p =>
      obtain ⟨hp, ht, hcut⟩ := h.split_some hs
      dsimp only
      rw [ihf hp, ihr ht, hjoin, hcut]

theorem collect_eq (h : s.WellFormed) (plan : Schedule) : s.collect plan = s.remaining.toArray := by
  refine reduce_eq (fun t ht => ?_) (fun xs ys => by simp) plan h
  rw [feed_fst ht]
  simp

theorem combine_eq {op : β → β → β} {one : β} [Std.Associative op] [Std.LawfulIdentity op one]
    (h : s.WellFormed) (image : α → β) (plan : Schedule) :
    s.combine image op one plan = s.remaining.foldl (fun acc x => op acc (image x)) one := by
  refine reduce_eq (fun t ht => ?_) (foldl_append_op image) plan h
  exact feed_fst ht _ one

end Schedules

section Least

variable {α : Type u} [Ord α]

instance lesser_identity : Std.LawfulIdentity (lesser : Option α → Option α → Option α) none where
  left_id x := by cases x <;> rfl
  right_id x := by cases x <;> rfl

theorem lesser_gt {x y : α} (h : compare x y = .gt) : lesser (some x) (some y) = some y := by
  simp [lesser, h]

theorem lesser_le {x y : α} (h : compare x y ≠ .gt) : lesser (some x) (some y) = some x := by
  simp [lesser, h]

instance lesser_associative [Std.TransOrd α] :
    Std.Associative (lesser : Option α → Option α → Option α) where
  assoc x y z := by
    match x, y, z with
    | none, y, z => cases y <;> cases z <;> rfl
    | some x, none, z => cases z <;> rfl
    | some x, some y, none => simp only [Std.LawfulRightIdentity.right_id]
    | some x, some y, some z =>
      by_cases hxy : compare x y = .gt
      · rw [lesser_gt hxy]
        by_cases hyz : compare y z = .gt
        · rw [lesser_gt hyz, lesser_gt (Std.TransCmp.gt_trans hxy hyz)]
        · rw [lesser_le hyz, lesser_gt hxy]
      · rw [lesser_le hxy]
        by_cases hyz : compare y z = .gt
        · rw [lesser_gt hyz]
        · have hxz : compare x z ≠ .gt := Ordering.ne_gt_iff_isLE.mpr
            (Std.TransCmp.isLE_trans (Ordering.ne_gt_iff_isLE.mp hxy) (Ordering.ne_gt_iff_isLE.mp hyz))
          rw [lesser_le hyz, lesser_le hxy, lesser_le hxz]

end Least

/-- Parallel equals sequential: for every sequence that can arise, combining the images of its elements
in a monoid gives the left fold over the elements that a drain visits, whatever the schedule, and
collecting gives these elements in order. Collecting, digesting, counting, summing and taking the least
element are of this kind. -/
theorem parallel_eq_sequential {α : Type} [Element α] {s : Sequence α} (h : Reachable Made s) :
    (∀ {β : Type v} (image : α → β) (op : β → β → β) (one : β) [Std.Associative op]
      [Std.LawfulIdentity op one] (plan other : Schedule),
      s.combine image op one plan = s.fold (fun acc x => op acc (image x)) one ∧
        s.combine image op one plan = s.combine image op one other) ∧
    (∀ plan, (s.collect plan).toList = s.remaining ∧ s.collect plan = s.toArray) ∧
    (∀ plan,
      s.perform plan .collect = { answer := .items s.remaining } ∧
      s.perform plan .digest = { answer := .digest (s.fold Digest.add Digest.empty) } ∧
      s.perform plan .count = { answer := .number s.remaining.length } ∧
      s.perform plan .sum = { answer := .number (s.remaining.map Element.digestKey).sum } ∧
      (Std.TransOrd α →
        s.perform plan .min = { answer := .element (s.fold (fun m x => lesser m (some x)) none) })) := by
  have hw := h.wellFormed fun _ hm => hm.wellFormed
  refine ⟨fun image op one _ _ plan other => ?_, fun plan => ?_, fun plan => ⟨?_, ?_, ?_, ?_, ?_⟩⟩
  · exact ⟨(combine_eq hw image plan).trans (fold_eq hw _ one).symm,
      (combine_eq hw image plan).trans (combine_eq hw image other).symm⟩
  · rw [collect_eq hw, toArray_eq hw]
    exact ⟨rfl, rfl⟩
  · rw [perform, collect_eq hw]
  · rw [perform, collect_eq hw, Digest.ofArray, fold_eq hw]
    simp
  · have hsum : (s.remaining.map fun _ => (1 : Int)).sum = s.remaining.length := by
      rw [List.map_const', List.sum_replicate_int, Int.mul_one]
    rw [perform, combine_eq hw, ← List.foldl_map, ← List.sum_eq_foldl, hsum]
  · rw [perform, combine_eq hw, ← List.foldl_map, ← List.sum_eq_foldl]
  · intro _
    rw [perform, combine_eq hw, fold_eq hw]

theorem parallel_eq_sequential_sample :
    let plan := Schedule.split (.split .traverse .traverse) (.split .traverse .traverse)
    Reachable Made sample ∧
      sample.combine (fun x => [x]) (· ++ ·) [] plan = [5, 6, 7, 0, 1, 2, 10, 11] ∧
      sample.combine (fun x => [x]) (· ++ ·) [] plan =
        sample.combine (fun x => [x]) (· ++ ·) [] .traverse ∧
      Std.TransOrd Int ∧ sample.perform plan .min = { answer := .element (some 0) } := by
  have hr : Reachable Made sample := sample_reachable.mono fun _ hp => hp.1
  have hh := (parallel_eq_sequential hr).1 (fun x => [x]) (· ++ ·) []
    (.split (.split .traverse .traverse) (.split .traverse .traverse)) .traverse
  have hmin := ((parallel_eq_sequential.{0} hr).2.2
    (.split (.split .traverse .traverse) (.split .traverse .traverse))).2.2.2.2 inferInstance
  have hleast : sample.fold (fun m x => lesser m (some x)) none = some 0 := by decide
  rw [hleast] at hmin
  exact ⟨hr, hh.1.trans (by decide), hh.2, inferInstance, hmin⟩

end Sequence

end SplitTraversal
