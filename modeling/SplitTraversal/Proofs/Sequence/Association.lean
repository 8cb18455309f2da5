import Mathlib.Algebra.Ring.Nat
import SplitTraversal.Proofs.Sequence.Guarantees

/-!
Association. Each concatenation decides for itself, from estimates that may be saturated already, whether
its sum can be counted. Still the outermost one states what could be stated from all the leaves at once:
estimates add up exactly or stop at that of an unknown size, and an overflow shows from any depth.
-/

namespace SplitTraversal

namespace Sequence

variable {α : Type u} {σ : Type v}

/-- How sequences are put together, two at a time. -/
inductive Joined (α : Type u)
  | leaf (s : Sequence α)
  | join (front back : Joined α)

def common (ls : List (Sequence α)) : Guarantees :=
  ls.foldr (fun l g => l.guarantees ∩ g) .full

@[simp] theorem mem_common {ls : List (Sequence α)} {f : Flag} :
    f ∈ common ls ↔ ∀ l ∈ ls, f ∈ l.guarantees := by
  induction ls with
  | nil => simp [common]
  | cons l ls ih => simpa [common] using fun _ => ih

theorem sdiff_lostByConcat (g : Guarantees) (p : Prop) [Decidable p] : g \ lostByConcat (decide p) =
    (g \ .ofList [.distinct, .sorted]) \ if p then .ofList [.sized, .subsized] else ∅ := by
  apply Guarantees.ext_has
  intro f
  by_cases hp : p <;> cases f <;> simp [lostByConcat, hp]

namespace Joined

variable {t u front back : Joined α} {f : Flag}

def sequence : Joined α → Sequence α
  | leaf s => s
  | join front back => front.sequence.concat back.sequence

def leaves : Joined α → List (Sequence α)
  | leaf s => [s]
  | join front back => front.leaves ++ back.leaves

/-- The estimates of the leaves added up, however large the sum may be. -/
def total (t : Joined α) : Nat := (t.leaves.map size).sum

def overflows : Joined α → Bool
  | leaf _ => false
  | join front back =>
      sizesOverflow front.sequence.size back.sequence.size || front.overflows || back.overflows

theorem length_leaves_pos (t : Joined α) : 0 < t.leaves.length := by
  induction t with
  | leaf s => simp [leaves]
  | join front back ihf ihb =>
    rw [leaves, List.length_append]
    omega

theorem eq_join_of_leaves (h : u.leaves = (join front back).leaves) : ∃ a b, u = join a b := by
  cases u with
  | leaf s =>
    have hf := front.length_leaves_pos
    have hb := back.length_leaves_pos
    have hlen := congrArg List.length h
    rw [leaves, leaves, List.length_append, List.length_singleton] at hlen
    omega
  | join a b => exact ⟨a, b, rfl⟩

@[simp] theorem total_leaf (s : Sequence α) : (leaf s).total = s.size := by simp [total, leaves]

@[simp] theorem total_join (front back : Joined α) :
    (join front back).total = front.total + back.total := by simp [total, leaves]

theorem min_size (t : Joined α) : min t.sequence.size unknownSize = min t.total unknownSize := by
  induction t with
  | leaf s => simp [sequence]
  | join front back ihf ihb =>
    -- Saturation on the way does not matter to a sum that saturates in the end.
    show min (addSizes front.sequence.size back.sequence.size) unknownSize = _
    rw [addSizes, total_join]
    omega

theorem size_join (front back : Joined α) :
    (join front back).sequence.size = min (join front back).total unknownSize := by
  rw [← min_size]
  exact (Nat.min_eq_left (addSizes_le_unknownSize _ _)).symm

/-- Estimates are exact sums until one of them overflows, and one that does is part of the total. -/
theorem overflows_spec (t : Joined α) : (t.overflows = true → unknownSize < t.total) ∧
    (t.overflows = false → t.sequence.size = t.total) := by
  induction t with
  | leaf s => simp [overflows, sequence]
  | join front back ihf ihb =>
    obtain ⟨hf, hf'⟩ := ihf
    obtain ⟨hb, hb'⟩ := ihb
    rw [total_join]
    constructor
    · intro ho
      cases hfo : front.overflows with
      | true =>
        have hlt := hf hfo
        omega
      | false =>
        cases hbo : back.overflows with
        | true =>
          have hlt := hb hbo
          omega
        | false =>
          simpa [overflows, hfo, hbo, hf' hfo, hb' hbo, sizesOverflow] using ho
    · intro ho
      simp only [overflows, Bool.or_eq_false_iff, sizesOverflow_eq_false] at ho
      rw [← hf' ho.1.2, ← hb' ho.2]
      exact addSizes_of_le ho.1.1

theorem overflows_join (front back : Joined α) :
    (join front back).overflows = decide (unknownSize < (join front back).total) := by
  obtain ⟨hover, hexact⟩ := (join front back).overflows_spec
  cases ho : (join front back).overflows with
  | true => simpa using hover ho
  | false =>
    -- A sum that saturated inside a part would have left its mark there.
    have hsize := hexact ho
    rw [size_join] at hsize
    have hle : (join front back).total ≤ unknownSize := by omega
    simpa using hle

def lost : Joined α → Guarantees
  | leaf _ => ∅
  | join front back => lostByConcat (join front back).overflows

theorem not_mem_lost_leaf (s : Sequence α) : f ∉ (leaf s).lost := by simp [lost]

/-- A mark that a part has left takes away nothing that the outermost concatenation would keep. -/
theorem mem_lost_join : f ∈ (join front back).lost ↔
    f ∈ lostByConcat (sizesOverflow front.sequence.size back.sequence.size) ∨
      f ∈ front.lost ∨ f ∈ back.lost := by
  have hjoin (a b : Joined α) : f ∈ (join a b).lost ↔ (f = .distinct ∨ f = .sorted) ∨
      (join a b).overflows = true ∧ (f = .sized ∨ f = .subsized) := mem_lostByConcat
  cases front <;> cases back <;>
    grind [mem_lostByConcat, overflows, not_mem_lost_leaf]

theorem mem_guarantees (t : Joined α) : f ∈ t.sequence.guarantees ↔
    (∀ l ∈ t.leaves, f ∈ l.guarantees) ∧ f ∉ t.lost := by
  induction t with
  | leaf s => simp [sequence, leaves, lost]
  | join front back ihf ihb =>
    rw [sequence, concat, mem_both, ihf, ihb, mem_lost_join, leaves, List.forall_mem_append]
    grind

theorem guarantees_join (front back : Joined α) : (join front back).sequence.guarantees =
    common (join front back).leaves \ lostByConcat (decide (unknownSize < (join front back).total)) := by
  apply Guarantees.ext_has
  intro f
  have hmem : f ∈ (join front back).sequence.guarantees ↔
      f ∈ common (join front back).leaves ∧
        f ∉ lostByConcat (decide (unknownSize < (join front back).total)) := by
    rw [mem_guarantees, mem_common, lost, overflows_join]
  rw [Bool.eq_iff_iff, Guarantees.has_sdiff]
  simpa using hmem

variable [Numeral α]

theorem remaining_sequence (t : Joined α) : t.sequence.remaining = t.leaves.flatMap remaining := by
  induction t with
  | leaf s => simp [sequence, leaves]
  | join front back ihf ihb => simp [sequence, leaves, ihf, ihb]

theorem drain_sequence (t : Joined α) (visit : Visitor σ α) (acc : σ) :
    (t.sequence.drain visit acc).1 = t.leaves.foldlM (fun acc l => (l.drain visit acc).1) acc := by
  induction t generalizing acc with
  | leaf s => simp [sequence, leaves]
  | join front back ihf ihb =>
    rw [leaves, List.foldlM_append, ← ihf]
    cases hf : (front.sequence.drain visit acc).1 with
    | error e => exact congrArg Prod.fst (drain_both_error hf)
    | ok acc' =>
      rw [sequence, concat, drain_both_ok hf]
      exact ihb acc'

theorem reachable {P : Sequence α → Prop} (t : Joined α) (h : ∀ l ∈ t.leaves, Reachable P l) :
    Reachable P t.sequence := by
  induction t with
  | leaf s => exact h s (by simp [leaves])
  | join front back ihf ihb =>
    rw [leaves, List.forall_mem_append] at h
    exact .concat (ihf h.1) (ihb h.2)

end Joined

/-- Association is immaterial. However two or more sequences are put together, whatever they estimate and
state: the estimate is the exact sum of theirs, stopped at that of an unknown size; the guarantees are
those that all of them state, without `distinct` and `sorted`, and without `sized` and `subsized` exactly
when the exact sum cannot be counted in 64 bits. So any other way to put the same sequences together in
the same order estimates, states and counts the same, owes the same elements in the same order, and hands
them to a visitor alike. -/
theorem association_immaterial (front back : Joined α) [Numeral α] :
    let t := Joined.join front back
    let sum := (t.leaves.map size).sum
    t.sequence.size = min sum (UInt64.size - 1) ∧
    t.sequence.guarantees = (common t.leaves \ .ofList [.distinct, .sorted]) \
      (if UInt64.size ≤ sum then .ofList [.sized, .subsized] else ∅) ∧
    ∀ u : Joined α, u.leaves = t.leaves →
      u.sequence.size = t.sequence.size ∧ u.sequence.guarantees = t.sequence.guarantees ∧
      u.sequence.exactSize = t.sequence.exactSize ∧
      u.sequence.remaining = t.sequence.remaining ∧
      (∀ {σ : Type v} (visit : Visitor σ α) (acc : σ),
        (u.sequence.drain visit acc).1 = (t.sequence.drain visit acc).1) ∧
      ((∀ l ∈ t.leaves, Reachable Made l) →
        ∀ xs, Yields u.sequence xs ↔ Yields t.sequence xs) := by
  refine ⟨Joined.size_join front back, ?_, fun u hu => ?_⟩
  · rw [Joined.guarantees_join]
    exact sdiff_lostByConcat _ (UInt64.size ≤ (Joined.join front back).total)
  · obtain ⟨a, b, rfl⟩ := Joined.eq_join_of_leaves hu
    have htotal : (Joined.join a b).total = (Joined.join front back).total := by
      rw [Joined.total, Joined.total, hu]
    have hsize : (Joined.join a b).sequence.size = (Joined.join front back).sequence.size := by
      rw [Joined.size_join, Joined.size_join, htotal]
    have hstated : (Joined.join a b).sequence.guarantees =
        (Joined.join front back).sequence.guarantees := by
      rw [Joined.guarantees_join, Joined.guarantees_join, htotal, hu]
    have howed : (Joined.join a b).sequence.remaining =
        (Joined.join front back).sequence.remaining := by
      rw [Joined.remaining_sequence, Joined.remaining_sequence, hu]
    refine ⟨hsize, hstated, by rw [exactSize, exactSize, hsize, hstated], howed,
      fun visit acc => ?_, fun hl xs => ?_⟩
    · rw [Joined.drain_sequence, Joined.drain_sequence, hu]
    · have hw {t : Joined α} (h : ∀ l ∈ t.leaves, Reachable Made l) : t.sequence.WellFormed :=
        (t.reachable h).wellFormed fun _ hm => hm.wellFormed
      rw [(hw hl).conserves.yields_iff, (hw (hu ▸ hl)).conserves.yields_iff, howed]

/-- Two supplied items, and the rest of a supplied sequence that cannot be counted. -/
def uncounted : Sequence Int :=
  (supplied ⟨[4, 5], .ofList [.sized, .ordered], unknownSize, none⟩).next.2

/-- To the left the inner sum overflows and the outer one, which adds nothing to it, does not; to the
right it is the other way round. -/
theorem association_immaterial_uncounted :
    let l := supplied ⟨[7], .ofList [.sized, .ordered], 0, none⟩
    let left := Joined.join (.join (.leaf uncounted) (.leaf l)) (.leaf (inline .empty))
    let right := Joined.join (.leaf uncounted) (.join (.leaf l) (.leaf (inline .empty)))
    right.leaves = left.leaves ∧ (∀ s ∈ left.leaves, Reachable Made s) ∧
      left.sequence.size = unknownSize ∧ Flag.sized ∉ left.sequence.guarantees ∧
      right.sequence.exactSize = left.sequence.exactSize ∧ Yields right.sequence [5, 7] := by
  intro l left right
  have hl : ∀ s ∈ left.leaves, Reachable Made s := by
    have hfirst : Reachable Made uncounted :=
      (Reachable.leaf (s := supplied _) trivial (.supplied _)).step .next
    have hsecond : Reachable Made l := .leaf trivial (.supplied _)
    have hthird : Reachable Made (inline .empty : Sequence Int) := .leaf trivial (.inline _)
    simpa [left, Joined.leaves] using ⟨hfirst, hsecond, hthird⟩
  have hh := association_immaterial.{0, 0} (.join (.leaf uncounted) (.leaf l)) (.leaf (inline .empty))
  obtain ⟨hsize, hstated, hsame⟩ := hh
  obtain ⟨-, -, hexact, -, -, hyields⟩ := hsame right rfl
  refine ⟨rfl, hl, hsize.trans (by decide), ?_, hexact, (hyields hl _).mpr ?_⟩
  · rw [hstated]
    decide
  · exact yields_remaining ((left.reachable hl).wellFormed fun _ hm => hm.wellFormed)

end Sequence

end SplitTraversal
