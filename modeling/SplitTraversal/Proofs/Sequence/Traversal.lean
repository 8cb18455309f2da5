import SplitTraversal.Proofs.Sequence.Remnant

/-!
What each operation does to the elements that a sequence owes, for every sequence whose leaves are well
formed. Every sequence that can arise from made leaves is of this kind, and stays so.
-/

namespace SplitTraversal

namespace Sequence

variable {α : Type u} {σ : Type v} {s a b : Sequence α} {o : Bool}

theorem Made.wellFormed (h : Made s) : s.WellFormed := by
  cases h with
  | range h => exact h.wellFormed
  | empty => trivial
  | inline s => trivial
  | @built xs b hx h =>
    rw [Builder.build_acceptAll] at h
    obtain rfl := Except.ok.inj h
    split
    · trivial
    · trivial
    · have hq := (Store.counted_ofList xs).toQueue
      refine ⟨hq, ?_⟩
      rw [ChunkQueue.Fits, hq.length_eq, Store.toList_toQueue, Store.toList_ofList]
      exact hx
  | builtOf x => trivial
  | buffer h hq => exact ⟨h.wellFormed, hq⟩
  | supplied s => trivial

theorem split_none (h : s.WellFormed) (hn : s.split.1 = none) : s.split.2 = s := by
  induction s with
  | range r => exact congrArg range (Range.split_none h (Option.map_eq_none_iff.mp hn))
  | empty => rfl
  | inline s => rfl
  | built b =>
    cases b with
    | inline s => rfl
    | buffered q =>
      have hq : q.split.1 = none := by simpa [split, Built.split] using hn
      exact congrArg (built ∘ Built.buffered) (ChunkQueue.split_none h.1 hq)
  | buffer q => exact congrArg buffer (ChunkQueue.split_none h.1 (Option.map_eq_none_iff.mp hn))
  | supplied s => rfl
  | both a b o => cases hn
  | firstOnly a ih => exact congrArg firstOnly (ih h (Option.map_eq_none_iff.mp hn))
  | secondOnly b o ih => exact congrArg (secondOnly · o) (ih h (Option.map_eq_none_iff.mp hn))

theorem WellFormed.split_whole {t : Sequence α} (h : s.WellFormed) (hs : s.split = (none, t)) : t = s := by
  have hsame := split_none h (congrArg Prod.fst hs)
  rwa [hs] at hsame

theorem WellFormed.rest (h : s.WellFormed) : s.split.2.WellFormed := (remnant_rest s).wellFormed h

theorem WellFormed.front (h : s.WellFormed) {p : Sequence α} (hp : s.split.1 = some p) :
    p.WellFormed :=
  (remnant_front hp).wellFormed h

variable [Numeral α] {visit : Visitor σ α} {acc acc' : σ}

/-- An advance visits the first element that is owed, once, and nothing when there is none. -/
theorem advance_fst (h : s.WellFormed) (visit : Visitor σ α) (acc : σ) :
    (s.advance visit acc).1 = visit.first acc s.remaining := by
  induction s with
  | range r =>
    rw [remaining, Visitor.first_map]
    exact Range.advance_fst h _ acc
  | empty => rfl
  | inline s => exact s.advance_fst visit acc
  | built b =>
    cases b with
    | inline s => exact s.advance_fst visit acc
    | buffered q => exact ChunkQueue.advance_fst h.1 visit acc
  | buffer q => exact ChunkQueue.advance_fst h.1 visit acc
  | supplied s => exact s.advance_fst
  | both a b o iha ihb =>
    have ha := iha h.1
    cases hr : a.remaining with
    | nil =>
      rw [hr] at ha
      rw [advance_both_dry ha, remaining, hr]
      exact ihb h.2
    | cons x xs =>
      rw [hr, Visitor.first_cons] at ha
      have hf : ∀ acc', (a.advance visit acc).1 ≠ .ok (acc', false) := by
        intro acc'
        rw [ha]
        exact Visitor.visited_ne visit acc acc' x
      rw [advance_both_found hf, remaining, hr]
      exact ha
  | firstOnly a ih => exact ih h
  | secondOnly b o ih => exact ih h

theorem advance_both_nil (ha : a.WellFormed) (hr : a.remaining = []) (visit : Visitor σ α) (acc : σ) :
    (both a b o).advance visit acc = (b.advance visit acc).map id (secondOnly · o) :=
  advance_both_dry (by rw [advance_fst ha, hr, Visitor.first_nil])

theorem advance_both_cons (ha : a.WellFormed) (hr : a.remaining ≠ []) (visit : Visitor σ α) (acc : σ) :
    (both a b o).advance visit acc = (a.advance visit acc).map id (both · b o) := by
  obtain ⟨x, xs, hx⟩ := List.exists_cons_of_ne_nil hr
  refine advance_both_found fun acc' => ?_
  rw [advance_fst ha, hx, Visitor.first_cons]
  exact Visitor.visited_ne visit acc acc' x

theorem remaining_advance (h : s.WellFormed) (visit : Visitor σ α) (acc : σ) :
    (s.advance visit acc).2.remaining = s.remaining.tail := by
  induction s with
  | range r =>
    rw [remaining, ← List.map_tail, ← Range.values_advance h]
    rfl
  | empty => rfl
  | inline s => exact s.toList_advance visit acc
  | built b =>
    cases b with
    | inline s => exact s.toList_advance visit acc
    | buffered q => exact ChunkQueue.toList_advance h.1 visit acc
  | buffer q => exact ChunkQueue.toList_advance h.1 visit acc
  | supplied s => exact congrArg Supplied.items s.advance_snd
  | both a b o iha ihb =>
    by_cases hr : a.remaining = []
    · rw [advance_both_nil h.1 hr, remaining, hr]
      exact ihb h.2
    · rw [advance_both_cons h.1 hr, remaining, List.tail_append_of_ne_nil hr, ← iha h.1]
      rfl
  | firstOnly a ih => exact ih h
  | secondOnly b o ih => exact ih h

theorem WellFormed.advance (h : s.WellFormed) (visit : Visitor σ α) (acc : σ) :
    (s.advance visit acc).2.WellFormed :=
  (remnant_advance s visit acc).wellFormed h

/-- A drain visits every element that is owed, in order, until the visitor raises. -/
theorem drain_fst (h : s.WellFormed) (visit : Visitor σ α) (acc : σ) :
    (s.drain visit acc).1 = s.remaining.foldlM visit acc := by
  induction s generalizing acc with
  | range r =>
    rw [remaining, List.foldlM_map]
    exact Range.drain_fst h _ acc
  | empty => rfl
  | inline s => exact s.drain_fst visit acc
  | built b =>
    cases b with
    | inline s => exact s.drain_fst visit acc
    | buffered q => exact q.drain_fst visit acc
  | buffer q => exact q.drain_fst visit acc
  | supplied s => exact Supplied.drainItems_fst
  | both a b o iha ihb =>
    have ha := iha h.1 acc
    cases hr : a.remaining.foldlM visit acc with
    | error e =>
      rw [hr] at ha
      rw [drain_both_error ha, remaining, Visitor.foldlM_append_error hr]
    | ok acc' =>
      rw [hr] at ha
      rw [drain_both_ok ha, remaining, Visitor.foldlM_append_ok hr]
      exact ihb h.2 acc'
  | firstOnly a ih => exact ih h acc
  | secondOnly b o ih => exact ih h acc

theorem remaining_drain (h : s.WellFormed) (hok : s.remaining.foldlM visit acc = .ok acc') :
    (s.drain visit acc).2.remaining = [] := by
  induction s generalizing acc acc' with
  | range r => exact congrArg _ (Range.values_drain _ acc)
  | empty => rfl
  | inline s => exact s.toList_drain visit acc
  | built b =>
    cases b with
    | inline s => exact s.toList_drain visit acc
    | buffered q => exact q.toList_drain visit acc
  | buffer q => exact q.toList_drain visit acc
  | supplied s => exact Supplied.drainItems_of_ok hok
  | both a b o iha ihb =>
    obtain ⟨acc₁, ha, hb⟩ := Visitor.foldlM_append_eq_ok.mp hok
    rw [drain_both_ok ((drain_fst h.1 visit acc).trans ha)]
    exact List.append_eq_nil_iff.mpr ⟨iha h.1 ha, ihb h.2 hb⟩
  | firstOnly a ih => exact ih h hok
  | secondOnly b o ih => exact ih h hok

theorem WellFormed.drain (h : s.WellFormed) (visit : Visitor σ α) (acc : σ) :
    (s.drain visit acc).2.WellFormed :=
  (remnant_drain s visit acc).wellFormed h

theorem next_fst (h : s.WellFormed) : s.next.1 = s.remaining.head? := by
  rw [next, Prod.map_fst, advance_fst h]
  cases s.remaining <;> rfl

theorem remaining_next (h : s.WellFormed) : s.next.2.remaining = s.remaining.tail :=
  remaining_advance h _ none

theorem WellFormed.next (h : s.WellFormed) : s.next.2.WellFormed := h.advance _ none

theorem WellFormed.of_next_some (h : s.WellFormed) {x : α} {t : Sequence α} (hn : s.next = (some x, t)) :
    t.WellFormed ∧ s.remaining = x :: t.remaining := by
  have hx := next_fst h
  have hw := h.next
  have htail := remaining_next h
  rw [hn] at hx hw htail
  obtain ⟨xs, hr⟩ := List.head?_eq_some_iff.mp hx.symm
  rw [hr, List.tail_cons] at htail
  exact ⟨hw, htail ▸ hr⟩

theorem WellFormed.of_next_none (h : s.WellFormed) {t : Sequence α} (hn : s.next = (none, t)) :
    t.WellFormed ∧ s.remaining = [] ∧ t.remaining = [] := by
  have hx := next_fst h
  have hw := h.next
  have htail := remaining_next h
  rw [hn] at hx hw htail
  have hnil : s.remaining = [] := List.head?_eq_none_iff.mp hx.symm
  exact ⟨hw, hnil, by simpa [hnil] using htail⟩

theorem remaining_split (h : s.WellFormed) {p : Sequence α} (hp : s.split.1 = some p) :
    p.remaining ++ s.split.2.remaining = s.remaining := by
  induction s generalizing p with
  | range r =>
    obtain ⟨t, ht, rfl⟩ := Option.map_eq_some_iff.mp hp
    rw [remaining, remaining, ← Range.values_split h ht, List.map_append]
    rfl
  | empty => cases hp
  | inline s => cases hp
  | built b =>
    cases b with
    | inline s => cases hp
    | buffered q =>
      obtain ⟨c, hc, rfl⟩ := Option.map_eq_some_iff.mp hp
      obtain ⟨t, ht, rfl⟩ := Option.map_eq_some_iff.mp hc
      exact ChunkQueue.toList_split h.1 ht
  | buffer q =>
    obtain ⟨t, ht, rfl⟩ := Option.map_eq_some_iff.mp hp
    exact ChunkQueue.toList_split h.1 ht
  | supplied s => cases hp
  | both a b o =>
    cases hp
    rfl
  | firstOnly a ih =>
    obtain ⟨t, ht, rfl⟩ := Option.map_eq_some_iff.mp hp
    have hh := ih h ht
    exact hh
  | secondOnly b o ih =>
    obtain ⟨t, ht, rfl⟩ := Option.map_eq_some_iff.mp hp
    have hh := ih h ht
    exact hh

theorem WellFormed.split_some {front rest : Sequence α} (h : s.WellFormed)
    (hs : s.split = (some front, rest)) :
    front.WellFormed ∧ rest.WellFormed ∧ front.remaining ++ rest.remaining = s.remaining := by
  have hp : s.split.1 = some front := congrArg Prod.fst hs
  have hrest := h.rest
  have hcut := remaining_split h hp
  rw [hs] at hrest hcut
  exact ⟨h.front hp, hrest, hcut⟩

theorem fold_eq {β : Type v} (h : s.WellFormed) (f : β → α → β) (acc : β) :
    s.fold f acc = s.remaining.foldl f acc := by
  rw [fold, drain_fst h, Visitor.foldlM_always, Visitor.state_ok]

theorem toArray_eq (h : s.WellFormed) : s.toArray = s.remaining.toArray := by
  rw [toArray, fold_eq h]
  simp

theorem Reachable.eachSupplied {P : Supplied α → Prop} {Q : Sequence α → Prop}
    (hP : ∀ s items, P s → items <:+ s.items → P { s with items := items })
    (hQ : ∀ s, Q s → s.EachSupplied P) (h : Reachable Q s) : s.EachSupplied P :=
  h.holds (fun s _ hq => hQ s hq) (fun _ _ => And.intro) fun _ _ hr => hr.eachSupplied hP

theorem Reachable.mono {P Q : Sequence α → Prop} (hPQ : ∀ s, P s → Q s) (h : Reachable P s) :
    Reachable Q s := by
  induction h with
  | leaf hl hp => exact .leaf hl (hPQ _ hp)
  | concat _ _ iha ihb => exact .concat iha ihb
  | step _ hs ih => exact .step ih hs

theorem Reachable.wellFormed {P : Sequence α → Prop} (hP : ∀ s, P s → s.WellFormed)
    (h : Reachable P s) : s.WellFormed :=
  h.holds (fun s _ hp => hP s hp) (fun _ _ => And.intro) fun _ _ hr => hr.wellFormed

end Sequence

end SplitTraversal
