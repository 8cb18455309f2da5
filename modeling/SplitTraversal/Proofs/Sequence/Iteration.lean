import SplitTraversal.Proofs.Sequence.Unwinding

/-!
One element at a time against the other traversals. The answers of `next` are the elements that are owed,
and nothing for ever after; the sequence stands where as many advances leave it; a fold that is started
there gets what further calls would return; and the hints are exact whenever the size is known.
-/

namespace SplitTraversal

namespace Sequence

variable {α : Type u} {β : Type v}

/-- What a fold comes to when the slot is never found empty: what the function makes of the value. -/
def Folded.ofExcept : Except β β → Folded β
  | .ok acc => .value acc
  | .error _ => .abandoned

theorem Folded.ofExcept_ne_vacant (result : Except β β) : ofExcept result ≠ .vacant := by
  cases result <;> simp [ofExcept]

theorem foldlM_refill (f : Visitor β α) (acc : β) (xs : List α) :
    xs.foldlM (refill f) (some acc) =
      match xs.foldlM f acc with
      | .ok acc => .ok (some acc)
      | .error _ => .error none := by
  induction xs generalizing acc with
  | nil => rfl
  | cons x xs ih =>
    cases hv : f acc x with
    | error e =>
      have hr : refill f (some acc) x = .error none := by simp [refill, hv]
      rw [Visitor.foldlM_cons_error hv, Visitor.foldlM_cons_error hr]
    | ok acc' =>
      have hr : refill f (some acc) x = .ok (some acc') := by simp [refill, hv]
      rw [Visitor.foldlM_cons_ok hv, Visitor.foldlM_cons_ok hr, ih]

theorem map_range_succ (f : Nat → β) (m : Nat) :
    (List.range (m + 1)).map f = f 0 :: (List.range m).map fun k => f (k + 1) := by
  rw [List.range_succ_eq_map, List.map_cons, List.map_map]
  rfl

variable [Numeral α] {s t : Sequence α} {m : Nat}

/-- The answers of `next` from `s` on are `xs`, and then there is none. -/
inductive Returns : Sequence α → List α → Prop
  | done {s t : Sequence α} (h : s.next = (none, t)) : Returns s []
  | next {s t : Sequence α} {x : α} {xs : List α} (h : s.next = (some x, t)) (ht : Returns t xs) :
      Returns s (x :: xs)

/-- `m` advances take `s` to `t`. Each has a visitor of its own, which may raise. -/
inductive Advances : Nat → Sequence α → Sequence α → Prop
  | none (s : Sequence α) : Advances 0 s s
  | advance {σ : Type u} {s t : Sequence α} {m : Nat} (visit : Visitor σ α) (acc : σ)
      (h : Advances m (s.advance visit acc).2 t) : Advances (m + 1) s t

theorem nextTimes_succ (m : Nat) (s : Sequence α) :
    s.nextTimes (m + 1) = (s.next.1 :: (s.next.2.nextTimes m).1, (s.next.2.nextTimes m).2) := rfl

theorem WellFormed.nextTimes (h : s.WellFormed) (m : Nat) : (s.nextTimes m).2.WellFormed := by
  induction m generalizing s with
  | zero => exact h
  | succ m ih => exact ih h.next

theorem steps_nextTimes (m : Nat) (s : Sequence α) : Relation.ReflTransGen Step s (s.nextTimes m).2 := by
  induction m generalizing s with
  | zero => exact .refl
  | succ m ih => exact .head .next (ih s.next.2)

theorem remaining_nextTimes (h : s.WellFormed) (m : Nat) :
    (s.nextTimes m).2.remaining = s.remaining.drop m := by
  induction m generalizing s with
  | zero => rfl
  | succ m ih =>
    rw [nextTimes_succ, ih h.next, remaining_next h, List.drop_tail]

theorem nextTimes_fst (h : s.WellFormed) (m : Nat) :
    (s.nextTimes m).1 = (List.range m).map (s.remaining[·]?) := by
  induction m generalizing s with
  | zero => rfl
  | succ m ih =>
    have hh := ih h.next
    rw [nextTimes_succ, hh, next_fst h, remaining_next h, map_range_succ]
    simp [List.head?_eq_getElem?]

/-- As many advances leave the same state, whatever their visitors do. -/
theorem advances_iff (h : s.WellFormed) : Advances m s t ↔ t = (s.nextTimes m).2 := by
  have hnext {s : Sequence α} (h : s.WellFormed) {σ : Type u} (visit : Visitor σ α) (acc : σ) :
      (s.advance visit acc).2 = s.next.2 := advance_snd h visit acc _ none
  constructor
  · intro ha
    induction ha with
    | none s => rfl
    | advance visit acc _ ih => rw [nextTimes_succ, ih (h.advance visit acc), hnext h]
  · rintro rfl
    induction m generalizing s with
    | zero => exact .none s
    | succ m ih =>
      refine .advance Visitor.record #[] ?_
      rw [hnext h, nextTimes_succ]
      exact ih h.next

theorem advanceTimes_eq (h : s.WellFormed) (m : Nat) (seen : Array α) :
    s.advanceTimes m seen =
      (((List.range m).map fun k => decide (k < s.remaining.length),
        seen ++ (s.remaining.take m).toArray), (s.nextTimes m).2) := by
  induction m generalizing s seen with
  | zero => simp [advanceTimes, nextTimes]
  | succ m ih =>
    have hfst := advance_fst h Visitor.record seen
    have hsnd : (s.advance Visitor.record seen).2 = s.next.2 := advance_snd h _ _ _ none
    have hrest := remaining_next h
    cases hs : s.advance Visitor.record seen with | mk result rest =>
    rw [hs] at hfst hsnd
    obtain rfl : rest = s.next.2 := hsnd
    cases hr : s.remaining with
    | nil =>
      rw [hr] at hfst hrest
      obtain rfl : result = .ok (seen, false) := hfst
      simp only [advanceTimes, hs, ih h.next, hrest, nextTimes_succ, map_range_succ, List.tail_nil,
        List.length_nil, List.take_nil, Array.append_empty, Nat.not_lt_zero, decide_false, Prod.map_apply,
        id_eq]
    | cons x xs =>
      rw [hr] at hfst hrest
      obtain rfl : result = .ok (seen.push x, true) := hfst
      simp [advanceTimes, hs, ih h.next, hrest, nextTimes_succ, map_range_succ]

theorem returns_iff (h : s.WellFormed) {xs : List α} : Returns s xs ↔ xs = s.remaining := by
  constructor
  · intro hx
    induction hx with
    | done hn => exact (h.of_next_none hn).2.1.symm
    | next hn _ ih =>
      obtain ⟨ht, hr⟩ := h.of_next_some hn
      rw [hr, ih ht]
  · rintro rfl
    generalize hr : s.remaining = xs
    induction xs generalizing s with
    | nil =>
      have hx : s.next.1 = none := by simp [next_fst h, hr]
      exact .done (Prod.ext hx rfl)
    | cons x xs ih =>
      have hx : s.next.1 = some x := by simp [next_fst h, hr]
      have hrest : s.next.2.remaining = xs := by simp [remaining_next h, hr]
      exact .next (Prod.ext hx rfl) (ih h.next hrest)

theorem foldSlot_eq (h : s.WellFormed) (f : Visitor β α) (acc : β) :
    s.foldSlot f acc = .ofExcept (s.remaining.foldlM f acc) := by
  rw [foldSlot, drain_fst h, foldlM_refill]
  cases s.remaining.foldlM f acc <;> rfl

theorem sizeHint_eq (h : s.WellFormed) (hf : s.CountsFit) (hh : s.EachSupplied Supplied.HonestSize) :
    s.sizeHint = if .sized ∈ s.guarantees then (s.remaining.length, some s.remaining.length) else (0, none) := by
  by_cases hs : Flag.sized ∈ s.guarantees
  · rw [sizeHint, exactSize, if_pos hs, if_pos hs, size_eq_of_sized h hf hh hs]
  · rw [sizeHint, exactSize, if_neg hs, if_neg hs]

theorem hints_eq (m : Nat) (s : Sequence α) :
    s.hints m = (List.range (m + 1)).map fun k => (s.nextTimes k).2.sizeHint := by
  induction m generalizing s with
  | zero => rfl
  | succ m ih =>
    rw [hints, ih, map_range_succ _ (m + 1)]
    rfl

theorem sizeHint_of_hints {k : Nat} {hint : Nat × Option Nat} (hk : (s.hints m)[k]? = some hint) :
    (s.nextTimes k).2.sizeHint = hint := by
  rw [hints_eq, List.getElem?_map, Option.map_eq_some_iff] at hk
  obtain ⟨i, hi, rfl⟩ := hk
  obtain ⟨hlt, rfl⟩ := List.getElem?_eq_some_iff.mp hi
  rw [List.getElem_range]

/-- A hint holds, and where it says how many elements are left no number was cut off. -/
theorem sizeHint_bounds (h : s.WellFormed) (hf : s.CountsFit) (hh : s.EachSupplied Supplied.HonestSize) :
    s.sizeHint.1 ≤ s.remaining.length ∧
      ∀ n, s.sizeHint.2 = some n → s.remaining.length ≤ n ∧ n ≤ unknownSize := by
  rw [sizeHint_eq h hf hh]
  by_cases hs : Flag.sized ∈ s.guarantees
  · have hfits : s.remaining.length ≤ unknownSize := by
      rw [← size_eq_of_sized h hf hh hs]
      exact size_le_unknownSize h
    simp [hs, hfits]
  · simp [hs]

/-- Iteration, from every sequence that can arise and for every number of calls of `next`. The answers are
the elements in order and then nothing. The sequence is then the one that as many advances leave, whatever
their visitors do. A fold from there gets exactly what further calls would return, in the same order, and
never finds its slot empty, also when its function raises. And if the supplied leaves are honest about
their sizes, the hint before and after each call is the number of elements to come while that is known,
and says nothing otherwise; so it always holds. -/
theorem iteration_exact (h : Reachable Made s) (m : Nat) :
    (s.nextTimes m).1 = (List.range m).map (s.remaining[·]?) ∧
    (∀ t, Advances m s t ↔ t = (s.nextTimes m).2) ∧
    (∀ seen, s.advanceTimes m seen =
      (((List.range m).map fun k => decide (k < s.remaining.length),
        seen ++ (s.remaining.take m).toArray), (s.nextTimes m).2)) ∧
    (∀ xs, Returns (s.nextTimes m).2 xs ↔ xs = s.remaining.drop m) ∧
    (∀ {β : Type v} (f : β → α → β) (acc : β),
      (s.nextTimes m).2.foldSlot (Visitor.always f) acc = .value ((s.remaining.drop m).foldl f acc)) ∧
    (∀ {β : Type v} (f : Visitor β α) (acc : β),
      (s.nextTimes m).2.foldSlot f acc = .ofExcept ((s.remaining.drop m).foldlM f acc) ∧
        (s.nextTimes m).2.foldSlot f acc ≠ .vacant) ∧
    (s.EachSupplied Supplied.HonestSize →
      s.hints m = ((List.range (m + 1)).map fun k =>
        if .sized ∈ (s.nextTimes k).2.guarantees
        then ((s.remaining.drop k).length, some (s.remaining.drop k).length) else (0, none)) ∧
      ∀ k lower upper, (s.hints m)[k]? = some (lower, upper) →
        lower ≤ (s.remaining.drop k).length ∧
          ∀ n, upper = some n → (s.remaining.drop k).length ≤ n ∧ n ≤ unknownSize) := by
  have hw := h.wellFormed fun _ hm => hm.wellFormed
  have hf := h.countsFit fun _ hm => hm.wellFormed
  have hrest := remaining_nextTimes hw m
  refine ⟨nextTimes_fst hw m, fun t => advances_iff hw, advanceTimes_eq hw m, fun xs => ?_,
    fun f acc => ?_, fun f acc => ?_, fun hh => ?_⟩
  · rw [returns_iff (hw.nextTimes m), hrest]
  · rw [foldSlot_eq (hw.nextTimes m), hrest, Visitor.foldlM_always]
    rfl
  · rw [foldSlot_eq (hw.nextTimes m), hrest]
    exact ⟨rfl, Folded.ofExcept_ne_vacant _⟩
  · have hlaws (k : Nat) : (s.nextTimes k).2.CountsFit ∧
        (s.nextTimes k).2.EachSupplied Supplied.HonestSize := by
      have hst := steps_nextTimes k s
      exact ⟨(steps_wellFormed hw hf hst).2, steps_preserve
        (fun _ _ hr => hr.eachSupplied fun _ _ hp hi => hp.suffix hi) hst hh⟩
    have hhint (k : Nat) := sizeHint_eq (hw.nextTimes k) (hlaws k).1 (hlaws k).2
    have hbounds (k : Nat) := sizeHint_bounds (hw.nextTimes k) (hlaws k).1 (hlaws k).2
    simp only [remaining_nextTimes hw] at hhint hbounds
    refine ⟨by simp only [hints_eq, hhint], fun k lower upper hk => ?_⟩
    have he : (s.nextTimes k).2.sizeHint = (lower, upper) := sizeHint_of_hints hk
    have hh := hbounds k
    rwa [he] at hh

theorem sample_honest : sample.EachSupplied Supplied.HonestSize :=
  sample_reachable.eachSupplied (fun _ _ hp hi => hp.suffix hi) fun _ hp => hp.2

/-- The size of the sample becomes known with the call that finds the supplied items gone; the fold starts
within the last range. -/
theorem iteration_exact_sample :
    Reachable Made sample ∧ sample.EachSupplied Supplied.HonestSize ∧
      (sample.nextTimes 7).1 = [some 5, some 6, some 7, some 0, some 1, some 2, some 10] ∧
      Advances 7 sample (sample.nextTimes 7).2 ∧ Returns (sample.nextTimes 7).2 [11] ∧
      (sample.nextTimes 7).2.foldSlot Visitor.record #[] = .value #[11] ∧
      (sample.nextTimes 7).2.foldSlot Visitor.refuse 0 = .abandoned ∧
      sample.hints 7 = [(0, none), (0, none), (0, none), (0, none), (4, some 4), (3, some 3), (2, some 2),
        (1, some 1)] ∧
      (1 ≤ (sample.remaining.drop 7).length ∧ (sample.remaining.drop 7).length ≤ 1) := by
  have hr : Reachable Made sample := sample_reachable.mono fun _ hp => hp.1
  obtain ⟨hitems, hstate, -, hreturns, hvalue, hfold, hhints⟩ := iteration_exact hr 7
  obtain ⟨hlist, hbound⟩ := hhints sample_honest
  have hlast := hbound 7 1 (some 1) (by rw [hlist]; decide)
  exact ⟨hr, sample_honest, hitems.trans (by decide), (hstate _).mpr rfl, (hreturns _).mpr (by decide),
    (hvalue Array.push #[]).trans (by decide), (hfold Visitor.refuse 0).1.trans (by decide),
    hlist.trans (by decide), hlast.1, (hlast.2 1 rfl).1⟩

end Sequence

end SplitTraversal
