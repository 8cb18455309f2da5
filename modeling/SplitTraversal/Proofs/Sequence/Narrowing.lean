import SplitTraversal.Proofs.Sequence.Guarantees
import SplitTraversal.Proofs.Sequence.Leaves
import SplitTraversal.Sequence.Resolution

/-!
When the guarantees of a sequence change. They stay the same as long as every concatenation in it keeps
the parts that it has; a call that takes a first part away brings back what the concatenation had lost.
The measure is `pairs`: no call raises it, and the calls that lower it are those that resolve.
-/

namespace SplitTraversal

namespace Sequence

open Concat (Call)

variable {α : Type u} {s t a b : Sequence α}

theorem Remnant.pairs_le (hr : Remnant s t) : t.pairs ≤ s.pairs := by
  induction hr with
  | both | front | back => simp only [pairs]; omega
  | firstOnly _ ih => exact ih
  | secondOnly _ ih => exact ih
  | _ => exact Nat.le_refl _

/-- Where no concatenation has lost a part, the leaves alone decide, and they never change. -/
theorem Remnant.guarantees_eq (hr : Remnant s t) (hp : t.pairs = s.pairs) : t.guarantees = s.guarantees := by
  induction hr with
  | @both a b a' b' o ha hb iha ihb =>
    have hfirst := ha.pairs_le
    have hsecond := hb.pairs_le
    simp only [pairs] at hp
    rw [guarantees, iha (by omega), ihb (by omega), guarantees]
  | front =>
    simp only [pairs] at hp
    omega
  | back hb =>
    have hsecond := hb.pairs_le
    simp only [pairs] at hp
    omega
  | firstOnly _ ih => exact ih hp
  | secondOnly _ ih => exact ih hp
  | _ => rfl

theorem pairs_split (s : Sequence α) : s.split.2.pairs < s.pairs ↔ s.SplitResolves := by
  induction s with
  | both a b o =>
    simp only [split, pairs, SplitResolves, iff_true]
    omega
  | firstOnly a ih => exact ih
  | secondOnly b o ih => exact ih
  | _ => simp [pairs, SplitResolves]

variable [Numeral α] {σ : Type v}

theorem pairs_advance (h : s.WellFormed) (visit : Visitor σ α) (acc : σ) :
    (s.advance visit acc).2.pairs < s.pairs ↔ s.AdvanceResolves := by
  induction s with
  | both a b o iha ihb =>
    by_cases hr : a.remaining = []
    · have hsecond := (remnant_advance b visit acc).pairs_le
      rw [advance_both_nil h.1 hr]
      simp only [pairs, Prod.map_snd, AdvanceResolves, hr, true_or, iff_true]
      omega
    · have hfirst := iha h.1
      rw [advance_both_cons h.1 hr, AdvanceResolves, or_iff_right hr, ← hfirst]
      simp only [pairs, Prod.map_snd]
      omega
  | firstOnly a ih => exact ih h
  | secondOnly b o ih => exact ih h
  | _ => simp [pairs, AdvanceResolves]

theorem pairs_drain (s : Sequence α) (visit : Visitor σ α) (acc : σ) :
    (s.drain visit acc).2.pairs = s.pairs := by
  induction s generalizing acc with
  | both a b o iha ihb =>
    cases hd : (a.drain visit acc).1 with
    | error e => rw [drain_both_error hd, pairs, iha, pairs]
    | ok acc' =>
      rw [drain_both_ok hd]
      simp only [pairs, Prod.map_snd, iha, ihb]
  | firstOnly a ih => exact ih acc
  | secondOnly b o ih => exact ih acc
  | _ => rfl

theorem step_after (s : Sequence α) (call : Call α) : Step s (s.after call) ∨ s.after call = s := by
  cases call with
  | advance visit acc => exact .inl (.advance visit acc)
  | next => exact .inl .next
  | drain visit acc => exact .inl (.drain visit acc)
  | split => exact .inl .rest
  | query => exact .inr rfl

theorem remnant_after (s : Sequence α) (call : Call α) : Remnant s (s.after call) := by
  obtain hs | hs := step_after s call
  · exact hs.remnant
  · rw [hs]
    exact .same s

theorem Reachable.after {P : Sequence α → Prop} (h : Reachable P s) (call : Call α) :
    Reachable P (s.after call) := by
  obtain hs | hs := step_after s call
  · exact h.step hs
  · rwa [hs]

theorem pairs_after (h : s.WellFormed) (call : Call α) : (s.after call).pairs < s.pairs ↔ s.Resolves call := by
  cases call with
  | advance visit acc => exact pairs_advance h visit acc
  | next => exact pairs_advance h _ none
  | drain visit acc => simp [Sequence.after, Resolves, pairs_drain]
  | split => exact pairs_split s
  | query => simp [Sequence.after, Resolves]

theorem guarantees_after (h : s.WellFormed) {call : Call α} (hc : ¬s.Resolves call) :
    (s.after call).guarantees = s.guarantees := by
  have hr := remnant_after s call
  have hle := hr.pairs_le
  have hlt := mt (pairs_after h call).mp hc
  exact hr.guarantees_eq (by omega)

/-- Every change of the guarantees is paid for by a concatenation that no longer holds both parts. -/
theorem changes_add_pairs_le (s : Sequence α) (calls : List (Call α)) :
    s.changes calls + (s.run calls).pairs ≤ s.pairs := by
  induction calls generalizing s with
  | nil => simp [changes, run]
  | cons call calls ih =>
    have hr := remnant_after s call
    have hle := hr.pairs_le
    have hh := ih (s.after call)
    rw [changes, run, List.foldl_cons, ← run]
    split
    · omega
    · rename_i hchange
      have hne : (s.after call).pairs ≠ s.pairs := fun hp => hchange (hr.guarantees_eq hp)
      omega

theorem Reachable.run {P : Sequence α → Prop} (h : Reachable P s) (calls : List (Call α)) :
    Reachable P (s.run calls) := by
  induction calls generalizing s with
  | nil => exact h
  | cons call calls ih => exact ih (h.after call)

/-- In every sequence that can arise: a call that resolves no concatenation in it leaves the guarantees
alone, and drains and queries are such calls, wherever a visitor raises. A call that resolves one, by a split
of a concatenation with both parts or by an advance past a first part that owes nothing, loses no guarantee
and leaves fewer concatenations with both parts. So in a run of calls the guarantees change at most once
for each concatenation that the run resolves. -/
theorem narrows_unless_resolved (h : Reachable Made s) :
    (∀ call, ¬s.Resolves call → (s.after call).guarantees = s.guarantees) ∧
    (∀ call, s.Resolves call →
      s.guarantees ⊆ (s.after call).guarantees ∧ (s.after call).pairs < s.pairs) ∧
    ∀ calls, s.changes calls + (s.run calls).pairs ≤ s.pairs := by
  have hw := h.wellFormed fun _ hm => hm.wellFormed
  refine ⟨fun call hc => guarantees_after hw hc, fun call hc => ?_, changes_add_pairs_le s⟩
  exact ⟨(remnant_after s call).guarantees_subset, (pairs_after hw call).mpr hc⟩

/-- The first `next` takes the empty part away. A drain that is abandoned at once leaves the first range in
place with nothing to owe, and the `next` after it takes that away. -/
theorem narrows_unless_resolved_hollow :
    let calls : List (Call Int) := [.query, .next, .next, .drain (Visitor.recordFirst 0) #[], .next]
    Reachable Made hollow ∧ (hollow.after .query).guarantees = hollow.guarantees ∧
      (hollow.guarantees ⊆ (hollow.after .next).guarantees ∧ (hollow.after .next).pairs < hollow.pairs) ∧
      hollow.changes calls + (hollow.run calls).pairs ≤ hollow.pairs ∧
      hollow.changes calls = 2 ∧ hollow.pairs = 2 := by
  obtain ⟨hkept, hresolved, hrun⟩ := narrows_unless_resolved hollow_reachable
  exact ⟨hollow_reachable, hkept .query id, hresolved .next (.inl rfl), hrun _, by decide, by decide⟩

def adjacent : Sequence Int := (range ⟨.word32, 0, 3, false⟩).concat (range ⟨.word32, 10, 11, true⟩)

/-- Guarantees can come back: the second range is sorted, the two together are not known to be, and a split
takes the first away, or an advance past its end. -/
theorem adjacent_widens :
    let t := adjacent.run [.next, .next, .next]
    Reachable Made adjacent ∧ ¬(adjacent.after .split).guarantees ⊆ adjacent.guarantees ∧
      Reachable Made t ∧ ¬(t.after .next).guarantees ⊆ t.guarantees := by
  intro t
  have hr : Reachable Made adjacent := .concat (.leaf trivial low_made) (.leaf trivial high_made)
  refine ⟨hr, fun h => ?_, hr.run _, fun h => ?_⟩
  · have hsorted := h .sorted (by decide)
    exact absurd hsorted (by decide)
  · have hsorted := h .sorted (by decide)
    exact absurd hsorted (by decide)

end Sequence

end SplitTraversal
