import SplitTraversal.Proofs.Range.Traversal
import SplitTraversal.Range.Checked

/-!
The arithmetic of ranges stays within its types. On every range that can arise the operations with checked
arithmetic have a result, which is that of the operations that wrap; so no sum ever wraps, no conversion
loses a digit and no size is cut off.
-/

namespace SplitTraversal

namespace Range

variable {σ : Type v} {r : Range}

theorem WellFormed.size_le_word32 (h : r.WellFormed) (hw : r.width = .word32) : r.size ≤ 4294967296 := by
  have hc := h.cursor_fits
  have hb := h.bound_fits
  have hp : r.pending.toNat ≤ 1 := Bool.toNat_le _
  have hs := h.size_eq_sub
  simp only [hw, Width.Fits, Width.minValue, Width.maxValue] at hc hb
  omega

theorem WellFormed.size_le_word64 (h : r.WellFormed) (hw : r.width = .word64) :
    r.size ≤ 9223372036854775807 := by
  rw [h.size_eq]
  exact h.count_le _ (by simp [hw, Width.maxCount])

theorem WellFormed.checked_size (h : r.WellFormed) : Checked.size r = some r.size := by
  have hle := h.cursor_le_bound
  have hs := h.size_eq_sub
  have hn : (r.bound - r.cursor).natAbs + r.pending.toNat = r.size := by omega
  have hfits : r.size ≤ unknownSize := addSizes_le_unknownSize _ _
  simp [Checked.size, hn, hfits]

theorem WellFormed.checked_advance (h : r.WellFormed) (visit : Visitor σ Int) (acc : σ) :
    Checked.advance visit acc r = some (r.advance visit acc) := by
  by_cases hlt : r.cursor < r.bound
  · have hf := h.cursor_succ_fits hlt
    simp [Checked.advance, Range.advance, hlt, Width.checked_of_fits hf, Width.wrap_of_fits hf]
  · by_cases hp : r.pending <;> simp [Checked.advance, Range.advance, hlt, hp]

/-- The loop that asks before each visit whether the bound is reached does as many rounds as there are
integers below the bound. -/
theorem checked_ascend (w : Width) (visit : Visitor σ Int) (n : Nat) (acc : σ) (i : Int) (hi : w.Fits i)
    (hn : w.Fits (i + n)) : Checked.ascend w visit (i + n) acc i = some (ascend w visit n acc i) := by
  induction n generalizing acc i with
  | zero => simp [Checked.ascend, ascend]
  | succ n ih =>
    have hlt : i < i + ((n + 1 : Nat) : Int) := by omega
    have he : i + ((n + 1 : Nat) : Int) = i + 1 + (n : Int) := by omega
    have hs : w.Fits (i + 1) := by
      simp only [Width.Fits] at *
      omega
    rw [Checked.ascend, if_pos hlt, ascend]
    cases visit acc i with
    | error acc' => rfl
    | ok acc' =>
      have hh := ih acc' (i + 1) hs (he ▸ hn)
      simp only [hs, if_true, he, hh, Width.wrap_of_fits hs]

theorem WellFormed.checked_drain (h : r.WellFormed) (visit : Visitor σ Int) (acc : σ) :
    Checked.drain visit acc r = some (r.drain visit acc) := by
  have hle := h.cursor_le_bound
  have he : r.cursor + ((r.bound - r.cursor).toNat : Int) = r.bound := by omega
  have hloop := checked_ascend r.width visit (r.bound - r.cursor).toNat acc r.cursor h.cursor_fits
    (by rw [he]; exact h.bound_fits)
  rw [he] at hloop
  rw [Checked.drain, hloop, Range.drain]
  cases ascend r.width visit (r.bound - r.cursor).toNat acc r.cursor <;> rfl

theorem WellFormed.checked_split (h : r.WellFormed) : Checked.split r = some r.split := by
  rw [Checked.split, h.checked_size, split_eq h]
  by_cases hs : r.size ≤ 1
  · simp [hs]
  · have hp := h.splitPoint_fits
    have hmid := h.split_fits (by omega)
    simp [hs, Width.checked_of_fits hp, Width.checked_of_fits hmid]

/-- The arithmetic of ranges is exact, on every range that can arise. The cursor does not pass the bound;
the size is the length of the interval with its pending endpoint, counted without saturation and within
the limit of the width; and every operation, abandoned or not, has the result that it has with checked
arithmetic. A split lies behind the cursor and not beyond the bound. -/
theorem arithmetic_exact (h : Reachable r) :
    (r.width.Fits r.cursor ∧ r.width.Fits r.bound ∧ r.cursor ≤ r.bound) ∧
    ((r.size : Int) = r.bound - r.cursor + r.pending.toNat ∧ Checked.size r = some r.size ∧
      (r.width = .word32 → r.size ≤ 4294967296) ∧
      (r.width = .word64 → r.size ≤ 9223372036854775807)) ∧
    (∀ {σ : Type v} (visit : Visitor σ Int) (acc : σ),
      Checked.advance visit acc r = some (r.advance visit acc) ∧
        Checked.drain visit acc r = some (r.drain visit acc)) ∧
    Checked.split r = some r.split ∧
    (∀ i, r.cursor ≤ i → i < r.bound → r.width.Fits (i + 1)) ∧
    (∀ front, r.split.1 = some front →
      r.width.Fits (splitPoint r.size) ∧ front.bound = r.cursor + splitPoint r.size ∧
        r.split.2.cursor = front.bound ∧ r.cursor < front.bound ∧ front.bound ≤ r.bound) := by
  have hw := h.wellFormed
  refine ⟨⟨hw.cursor_fits, hw.bound_fits, hw.cursor_le_bound⟩,
    ⟨hw.size_eq_sub, hw.checked_size, hw.size_le_word32, hw.size_le_word64⟩,
    fun visit acc => ⟨hw.checked_advance visit acc, hw.checked_drain visit acc⟩, hw.checked_split,
    fun i hi hlt => hw.succ_fits hi hlt, fun front hf => ?_⟩
  rw [split_eq hw] at hf ⊢
  split at hf
  · cases hf
  · rename_i hs
    obtain rfl := Option.some.inj hf
    rw [if_neg hs]
    exact ⟨hw.splitPoint_fits, rfl, rfl, hw.splitPoint_mem (by omega)⟩

/-- All values of 32 bits: their number is no value of the type, and neither is that of a half. -/
theorem arithmetic_exact_full :
    let r : Range := ⟨.word32, -2147483648, 2147483647, true⟩
    Reachable r ∧ r.size = 4294967296 ∧
      Checked.split r = some (some ⟨.word32, -2147483648, -1610612736, false⟩,
        ⟨.word32, -1610612736, 2147483647, true⟩) ∧
      Checked.advance Visitor.refuse () r =
        some (.error (), ⟨.word32, -2147483647, 2147483647, true⟩) := by
  have hr : Reachable ⟨.word32, -2147483648, 2147483647, true⟩ :=
    .closed (by decide : Width.word32.Fits (-2147483648)) (by decide : Width.word32.Fits 2147483647) rfl
  obtain ⟨-, ⟨hsize, -⟩, hrun, hsplit, -⟩ := arithmetic_exact hr
  refine ⟨hr, ?_, hsplit.trans (congrArg some (by decide)), ?_⟩
  · exact Int.ofNat.inj (hsize.trans (by decide))
  · exact (hrun Visitor.refuse ()).1.trans rfl

end Range

end SplitTraversal
