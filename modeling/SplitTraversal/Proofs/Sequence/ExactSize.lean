import SplitTraversal.Proofs.Sequence.Conservation

/-!
Estimates. No operation makes an estimate grow, so two parts whose estimates could be summed when they
were concatenated can be summed for ever. Therefore a sequence that states `sized` counts exactly what
it owes, as long as the supplied leaves do.
-/

namespace SplitTraversal

namespace Sequence

variable {α : Type u} {σ : Type v} {s t a b : Sequence α} {o : Bool}

theorem size_le_unknownSize (h : s.WellFormed) : s.size ≤ unknownSize := by
  induction s with
  | range r => exact addSizes_le_unknownSize _ _
  | empty => exact Nat.zero_le _
  | inline s =>
    rw [size, Inline.size]
    split <;> decide
  | built b =>
    cases b with
    | inline s =>
      rw [size, Built.size, Inline.size]
      split <;> decide
    | buffered q => exact h.2
  | buffer q => exact h.2
  | supplied s => exact addSizes_le_unknownSize _ _
  | both a b o => exact addSizes_le_unknownSize _ _
  | firstOnly a ih => exact ih h
  | secondOnly b o ih => exact ih h

theorem Remnant.size_le (hr : Remnant s t) (h : s.WellFormed) : t.size ≤ s.size := by
  induction hr with
  | same s => exact Nat.le_refl _
  | range hs => exact hs.size_le h
  | inline s => exact Nat.zero_le _
  | builtInline s => exact Nat.zero_le _
  | buffered hs => exact hs.length_le h.1
  | buffer hs => exact hs.length_le h.1
  | supplied hs => exact Supplied.size_le_size hs
  | both _ _ iha ihb => exact addSizes_le_addSizes (iha h.1) (ihb h.2)
  | front => exact le_addSizes_left _ (size_le_unknownSize h.1)
  | back _ ihb => exact Nat.le_trans (ihb h.2) (le_addSizes_right _ (size_le_unknownSize h.2))
  | firstOnly _ ih => exact ih h
  | secondOnly _ ih => exact ih h

/-- The estimates of two parts can be summed, unless the concatenation is marked as overflowed. -/
def CountsFit : Sequence α → Prop
  | both a b o => (o = false → a.size + b.size ≤ unknownSize) ∧ a.CountsFit ∧ b.CountsFit
  | firstOnly a => a.CountsFit
  | secondOnly b _ => b.CountsFit
  | _ => True

theorem CountsFit.concat (ha : a.CountsFit) (hb : b.CountsFit) : (a.concat b).CountsFit :=
  ⟨sizesOverflow_eq_false.mp, ha, hb⟩

/-- Sums of estimates that never grow can be counted as long as they could be at the start. -/
theorem Remnant.countsFit (hr : Remnant s t) (hf : s.CountsFit) (h : s.WellFormed) : t.CountsFit := by
  induction hr with
  | same s => exact hf
  | range | inline | builtInline | buffered | buffer | supplied => trivial
  | both ha hb iha ihb =>
    refine ⟨fun ho => ?_, iha hf.2.1 h.1, ihb hf.2.2 h.2⟩
    exact Nat.le_trans (Nat.add_le_add (ha.size_le h.1) (hb.size_le h.2)) (hf.1 ho)
  | front => exact hf.2.1
  | back _ ihb => exact ihb hf.2.2 h.2
  | firstOnly _ ih => exact ih hf h
  | secondOnly _ ih => exact ih hf h

variable [Numeral α]

/-- A leaf that counts what it owes: any leaf but a supplied one. -/
def Counting : Sequence α → Prop
  | range _ | empty | inline _ | built _ | buffer _ => True
  | _ => False

theorem Counting.size_eq (hc : s.Counting) (h : s.WellFormed) : s.size = s.remaining.length := by
  cases s with
  | range r => rw [size, remaining, List.length_map, Range.WellFormed.size_eq h]
  | empty => rfl
  | inline s => exact s.size_eq
  | built b =>
    cases b with
    | inline s => exact s.size_eq
    | buffered q => exact h.1.length_eq
  | buffer q => exact h.1.length_eq
  | supplied | both | firstOnly | secondOnly => cases hc

theorem Counting.remaining_drain (hc : s.Counting) (visit : Visitor σ α) (acc : σ) :
    (s.drain visit acc).2.remaining = [] := by
  cases s with
  | range r => exact congrArg _ (Range.values_drain _ acc)
  | empty => rfl
  | inline s => exact s.toList_drain visit acc
  | built b =>
    cases b with
    | inline s => exact s.toList_drain visit acc
    | buffered q => exact q.toList_drain visit acc
  | buffer q => exact q.toList_drain visit acc
  | supplied | both | firstOnly | secondOnly => cases hc

theorem Counting.drain (hc : s.Counting) (visit : Visitor σ α) (acc : σ) :
    (s.drain visit acc).2.Counting := by
  cases s with
  | built b => cases b <;> trivial
  | supplied | both | firstOnly | secondOnly => cases hc
  | _ => trivial

theorem size_eq_of_sized (h : s.WellFormed) (hf : s.CountsFit) (hh : s.EachSupplied Supplied.HonestSize)
    (hs : Flag.sized ∈ s.guarantees) : s.size = s.remaining.length := by
  induction s with
  | supplied s => exact hh hs s.items List.suffix_rfl
  | both a b o iha ihb =>
    obtain ⟨ha, hb, hl⟩ := mem_both.mp hs
    have ho := (not_mem_lostByConcat_iff (.inl rfl)).mp hl
    rw [remaining, List.length_append, ← iha h.1 hf.2.1 hh.1 ha, ← ihb h.2 hf.2.2 hh.2 hb]
    exact addSizes_of_le (hf.1 ho)
  | firstOnly a ih => exact ih h hf hh hs
  | secondOnly b o ih => exact ih h hf hh hs
  | _ => exact Counting.size_eq (by trivial) h

theorem Reachable.countsFit {P : Sequence α → Prop} (hP : ∀ s, P s → s.WellFormed)
    (h : Reachable P s) : s.CountsFit := by
  induction h with
  | @leaf s hl _ =>
    cases s with
    | both | firstOnly | secondOnly => cases hl
    | _ => trivial
  | concat _ _ iha ihb => exact iha.concat ihb
  | step hr hs ih => exact hs.remnant.countsFit ih (hr.wellFormed hP)

/-- Exact sizes: in every state that can arise from made leaves, the supplied ones among them honest
about their sizes, a sequence that states `sized` estimates and counts exactly the elements that
advances visit, and the estimates of its two parts, if it has two, are summed without saturation. -/
theorem sized_exact (h : Reachable (fun l => Made l ∧ l.EachSupplied Supplied.HonestSize) s)
    (hs : Flag.sized ∈ s.guarantees) :
    s.size = s.remaining.length ∧ s.exactSize = some s.remaining.length ∧ Yields s s.remaining ∧
      ∀ a b o, s = both a b o → a.size + b.size ≤ unknownSize := by
  have hw := h.wellFormed fun _ hp => hp.1.wellFormed
  have hf := h.countsFit fun _ hp => hp.1.wellFormed
  have hh := h.eachSupplied (fun _ _ hp hi => hp.suffix hi) fun _ hp => hp.2
  have he := size_eq_of_sized hw hf hh hs
  refine ⟨he, ?_, yields_remaining hw, fun a b o hab => ?_⟩
  · rw [exactSize, if_pos hs, he]
  · subst hab
    have hl := (mem_both.mp hs).2.2
    exact hf.1 ((not_mem_lostByConcat_iff (.inl rfl)).mp hl)

/-- The promise about the supplied items is void here, and the size is exact once they are gone. -/
theorem sized_exact_sample :
    let s := sample.next.2.next.2.next.2.next.2
    Reachable (fun l => Made l ∧ l.EachSupplied Supplied.HonestSize) s ∧
      Flag.sized ∉ sample.guarantees ∧ Flag.sized ∈ s.guarantees ∧ s.exactSize = some 4 := by
  have hr : Reachable _ sample.next.2.next.2.next.2.next.2 :=
    (((sample_reachable.step .next).step .next).step .next).step .next
  exact ⟨hr, by decide, by decide, (sized_exact hr (by decide)).2.1⟩

end Sequence

end SplitTraversal
