import SplitTraversal.Proofs.Sequence.Traversal

/-!
Conservation of elements. Whatever is done to a sequence and to the pieces split off it, in whatever
order, every element that it owed at the start has been visited once or is still owed by one piece.
-/

namespace SplitTraversal

namespace Sequence

variable {α : Type u} [Numeral α] {s : Sequence α}

/-- The operations agree with the list of elements that the sequence owes, which is the list that
advances visit one by one. -/
structure Conserves (s : Sequence α) : Prop where
  yields_iff : ∀ xs, Yields s xs ↔ xs = s.remaining
  /-- An advance offers the first element to the visitor, once, and takes it off. -/
  advance : ∀ {σ : Type u} (visit : Visitor σ α) (acc : σ),
    (s.advance visit acc).1 = visit.first acc s.remaining ∧
      (s.advance visit acc).2.remaining = s.remaining.tail
  next : s.next.1 = s.remaining.head? ∧ s.next.2.remaining = s.remaining.tail
  /-- A drain visits every element in order and leaves none. -/
  drain : ∀ {σ : Type u} (f : σ → α → σ) (acc : σ),
    (s.drain (Visitor.always f) acc).1 = .ok (s.remaining.foldl f acc) ∧
      (s.drain (Visitor.always f) acc).2.remaining = []
  split : ∀ front, s.split.1 = some front → front.remaining ++ s.split.2.remaining = s.remaining
  whole : s.split.1 = none → s.split.2 = s

theorem advance_record (h : s.WellFormed) : s.advance Visitor.record #[] =
    (match s.remaining with
      | [] => .ok (#[], false)
      | x :: _ => .ok (#[x], true), (s.advance Visitor.record #[]).2) := by
  refine Prod.ext ?_ rfl
  rw [advance_fst h]
  cases s.remaining <;> rfl

theorem WellFormed.of_advance_record (h : s.WellFormed) {seen : Array α} {found : Bool} {t : Sequence α}
    (hs : s.advance Visitor.record #[] = (.ok (seen, found), t)) :
    t.WellFormed ∧ seen.toList ++ t.remaining = s.remaining ∧ (found = false → s.remaining = []) := by
  have hw := h.advance Visitor.record #[]
  have htail := remaining_advance h Visitor.record #[]
  rw [advance_record h] at hs
  rw [(Prod.mk.inj hs).2] at hw htail
  refine ⟨hw, ?_⟩
  cases hr : s.remaining with
  | nil =>
    rw [hr] at hs htail
    obtain ⟨rfl, rfl⟩ : #[] = seen ∧ false = found := by simpa using (Prod.mk.inj hs).1
    simp [htail]
  | cons x xs =>
    rw [hr] at hs htail
    obtain ⟨rfl, rfl⟩ : #[x] = seen ∧ true = found := by simpa using (Prod.mk.inj hs).1
    simp [htail]

theorem Yields.eq_remaining {xs : List α} (hy : Yields s xs) (h : s.WellFormed) : xs = s.remaining := by
  induction hy with
  | done hs => exact ((h.of_advance_record hs).2.2 rfl).symm
  | visit hs _ ih =>
    obtain ⟨ht, hr, -⟩ := h.of_advance_record hs
    rw [ih ht, ← hr]
    rfl

theorem yields_remaining (h : s.WellFormed) : Yields s s.remaining := by
  generalize hr : s.remaining = xs
  have hs := advance_record h
  rw [hr] at hs
  induction xs generalizing s with
  | nil => exact .done hs
  | cons x xs ih =>
    have htail := remaining_advance h Visitor.record #[]
    rw [hr, List.tail_cons] at htail
    have ht := h.advance Visitor.record #[]
    exact .visit hs (ih ht htail (htail ▸ advance_record ht))

theorem WellFormed.conserves (h : s.WellFormed) : s.Conserves where
  yields_iff xs := ⟨fun hy => hy.eq_remaining h, fun hx => hx ▸ yields_remaining h⟩
  advance visit acc := ⟨advance_fst h visit acc, remaining_advance h visit acc⟩
  next := ⟨next_fst h, remaining_next h⟩
  drain f acc := by
    have hok := Visitor.foldlM_always f acc s.remaining
    exact ⟨(drain_fst h _ acc).trans hok, remaining_drain h hok⟩
  split _ hp := remaining_split h hp
  whole hn := split_none h hn

/-- One operation on a piece moves elements between the parts of its account only. -/
theorem Piece.Turn.elements {p : Piece α} {ps : List (Piece α)} (ht : p.Turn ps)
    (h : p.owed.WellFormed) :
    ps.flatMap Piece.elements = p.elements ∧ ∀ q ∈ ps, q.owed.WellFormed := by
  cases ht with
  | advance hs =>
    obtain ⟨hw, hr, -⟩ := h.of_advance_record hs
    exact ⟨by simp [Piece.elements, hr], by simpa using hw⟩
  | @next x t hs =>
    cases x with
    | none =>
      obtain ⟨hw, hnil, htail⟩ := h.of_next_none hs
      exact ⟨by simp [Piece.elements, hnil, htail], by simpa using hw⟩
    | some x =>
      obtain ⟨hw, hr⟩ := h.of_next_some hs
      exact ⟨by simp [Piece.elements, hr], by simpa using hw⟩
  | @drain seen t hs =>
    have hw := h.drain Visitor.record #[]
    have hok := Visitor.foldlM_always Array.push #[] p.owed.remaining
    have hnil := remaining_drain h hok
    have hseen := (drain_fst h _ #[]).trans hok
    rw [Visitor.record] at hs hw
    rw [hs] at hw hnil hseen
    obtain rfl := Except.ok.inj hseen
    exact ⟨by simp [Piece.elements, hnil], by simpa using hw⟩
  | split hs =>
    obtain ⟨hfront, hrest, hcut⟩ := h.split_some hs
    exact ⟨by simp [Piece.elements, ← hcut], by simpa using ⟨hfront, hrest⟩⟩
  | whole hs =>
    obtain rfl := h.split_whole hs
    exact ⟨by simp [Piece.elements], by simpa using h⟩

theorem Play.elements {ps qs : List (Piece α)} (hp : Play ps qs) (h : ∀ p ∈ ps, p.owed.WellFormed) :
    qs.flatMap Piece.elements = ps.flatMap Piece.elements ∧ ∀ q ∈ qs, q.owed.WellFormed := by
  cases hp with
  | @turn before after p ts ht =>
    obtain ⟨he, hw⟩ := ht.elements (h p (by simp))
    refine ⟨by simp [he], fun q hq => ?_⟩
    obtain hq | hq | hq : q ∈ before ∨ q ∈ ts ∨ q ∈ after := by simpa using hq
    · exact h q (by simp [hq])
    · exact hw q hq
    · exact h q (by simp [hq])

theorem Played.elements {ps : List (Piece α)} (hp : Played s ps) (h : s.WellFormed) :
    ps.flatMap Piece.elements = s.remaining ∧ ∀ p ∈ ps, p.owed.WellFormed := by
  induction hp with
  | refl => exact ⟨by simp [Piece.elements], by simpa using h⟩
  | tail _ hs ih =>
    obtain ⟨he, hw⟩ := hs.elements ih.2
    exact ⟨he.trans ih.1, hw⟩

/-- Conservation of elements: in every sequence that can arise the operations agree with the list that
advances visit, concatenation appends these lists, and any run over the pieces of a sequence leaves
each of its elements, in place, either visited once or owed by one piece. -/
theorem elements_conserved (h : Reachable Made s) :
    s.Conserves ∧
    (∀ t, Reachable Made t → (s.concat t).Conserves ∧
      ∀ xs, Yields (s.concat t) xs ↔ xs = s.remaining ++ t.remaining) ∧
    (∀ pieces, Played s pieces →
      pieces.flatMap (fun p => p.visited ++ p.owed.remaining) = s.remaining ∧
        ∀ p ∈ pieces, p.owed.Conserves) := by
  have hw := h.wellFormed fun _ hm => hm.wellFormed
  refine ⟨hw.conserves, fun t ht => ?_, fun pieces hp => ?_⟩
  · have hc : (s.concat t).WellFormed := ⟨hw, ht.wellFormed fun _ hm => hm.wellFormed⟩
    exact ⟨hc.conserves, hc.conserves.yields_iff⟩
  · obtain ⟨he, hws⟩ := hp.elements hw
    exact ⟨he, fun p hm => (hws p hm).conserves⟩

/-- Three supplied items and a range, and behind them a closed range. -/
def sample : Sequence Int :=
  ((supplied ⟨[5, 6, 7], ∅, 0, none⟩).concat (range ⟨.word32, 0, 3, false⟩)).concat
    (range ⟨.word32, 10, 11, true⟩)

theorem low_made : Made (range ⟨.word32, 0, 3, false⟩ : Sequence Int) :=
  .range (.ofBounds (by decide : Width.word32.Fits 0) (by decide : Width.word32.Fits 3) rfl)

theorem high_made : Made (range ⟨.word32, 10, 11, true⟩ : Sequence Int) :=
  .range (.ofBounds (by decide : Width.word32.Fits 10) (by decide : Width.word32.Fits 11) rfl)

theorem sample_reachable :
    Reachable (fun l => Made l ∧ l.EachSupplied Supplied.HonestSize) sample := by
  refine .concat (.concat (.leaf trivial ⟨.supplied _, ?_⟩) (.leaf trivial ⟨low_made, trivial⟩))
    (.leaf trivial ⟨high_made, trivial⟩)
  intro hs
  simp at hs

theorem elements_conserved_sample :
    let s := (sample.drain (Visitor.recordFirst 1) #[]).2
    Reachable Made s ∧ s.remaining = [7, 0, 1, 2, 10, 11] ∧ s.Conserves := by
  have hr : Reachable Made (sample.drain (Visitor.recordFirst 1) #[]).2 :=
    (sample_reachable.mono fun _ hp => hp.1).step (.drain _ _)
  exact ⟨hr, by decide, (elements_conserved hr).1⟩

end Sequence

end SplitTraversal
