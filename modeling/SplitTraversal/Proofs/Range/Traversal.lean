import SplitTraversal.Range.Reach

/-!
Traversal and splitting of ranges in terms of the integers that they owe. Wrapping never shows: every
range that can arise is well formed, and on such a range each operation acts on `values` as on a list.
-/

namespace SplitTraversal

namespace Range

def ascending (i : Int) (n : Nat) : List Int := (List.range n).map fun k : Nat => i + k

@[simp] theorem ascending_zero (i : Int) : ascending i 0 = [] := rfl

@[simp] theorem length_ascending (i : Int) (n : Nat) : (ascending i n).length = n := by
  simp [ascending]

theorem ascending_add (i : Int) (m n : Nat) :
    ascending i (m + n) = ascending i m ++ ascending (i + m) n := by
  simp [ascending, List.range_add, Int.add_assoc, Function.comp_def]

theorem ascending_succ (i : Int) (n : Nat) : ascending i (n + 1) = i :: ascending (i + 1) n := by
  rw [Nat.add_comm, ascending_add]
  simp [ascending]

theorem values_eq_ascending (r : Range) :
    r.values = ascending r.cursor ((r.bound - r.cursor).toNat + r.pending.toNat) := rfl

@[simp] theorem length_values (r : Range) :
    r.values.length = (r.bound - r.cursor).toNat + r.pending.toNat := by
  simp [values_eq_ascending]

theorem values_eq_append (r : Range) (h : r.cursor ≤ r.bound) :
    r.values = ascending r.cursor (r.bound - r.cursor).toNat ++ ascending r.bound r.pending.toNat := by
  rw [values_eq_ascending, ascending_add]
  congr 2
  omega

theorem mem_ascending {i k : Int} {n : Nat} : k ∈ ascending i n ↔ i ≤ k ∧ k < i + n := by
  simp only [ascending, List.mem_map, List.mem_range]
  constructor
  · rintro ⟨j, hj, rfl⟩
    omega
  · intro hk
    exact ⟨(k - i).toNat, by omega, by omega⟩

theorem pairwise_values (r : Range) : r.values.Pairwise (· < ·) := by
  rw [values_eq_ascending, ascending, List.pairwise_map]
  refine List.pairwise_lt_range.imp ?_
  intro i j hij
  omega

variable {σ : Type v} {r : Range}

theorem WellFormed.succ_fits (h : r.WellFormed) {i : Int} (hi : r.cursor ≤ i) (hlt : i < r.bound) :
    r.width.Fits (i + 1) := by
  have hc := h.cursor_fits
  have hb := h.bound_fits
  simp only [Width.Fits] at *
  omega

theorem WellFormed.cursor_succ_fits (h : r.WellFormed) (hlt : r.cursor < r.bound) :
    r.width.Fits (r.cursor + 1) :=
  h.succ_fits (Int.le_refl _) hlt

theorem WellFormed.narrow (h : r.WellFormed) {c b : Int} {p : Bool} (hc : r.cursor ≤ c) (hcb : c ≤ b)
    (hb : b ≤ r.bound) (hp : (b - c).toNat + p.toNat ≤ r.values.length) :
    (⟨r.width, c, b, p⟩ : Range).WellFormed := by
  have hcf := h.cursor_fits
  have hbf := h.bound_fits
  simp only [Width.Fits] at hcf hbf
  refine ⟨⟨?_, ?_⟩, ⟨?_, ?_⟩, hcb, fun m hm => ?_⟩
  · exact Int.le_trans hcf.1 hc
  · exact Int.le_trans (Int.le_trans hcb hb) hbf.2
  · exact Int.le_trans (Int.le_trans hcf.1 hc) hcb
  · exact Int.le_trans hb hbf.2
  · rw [length_values]
    exact Nat.le_trans hp (h.count_le m hm)

theorem WellFormed.size_eq (h : r.WellFormed) : r.size = r.values.length := by
  have hc := h.cursor_fits
  have hb := h.bound_fits
  have hle := h.cursor_le_bound
  have hp : r.pending.toNat ≤ 1 := Bool.toNat_le _
  have hcount : r.values.length ≤ unknownSize := by
    have hmax := h.count_le
    rw [length_values] at hmax ⊢
    cases hw : r.width with
    | word32 =>
      simp only [hw, Width.Fits, Width.minValue, Width.maxValue] at hc hb
      simp only [unknownSize]
      omega
    | word64 => exact Nat.le_trans (hmax _ (by rw [hw]; rfl)) (by decide)
  rw [length_values] at hcount ⊢
  rw [size, addSizes]
  omega

theorem WellFormed.size_eq_sub (h : r.WellFormed) : (r.size : Int) = r.bound - r.cursor + r.pending.toNat := by
  have hle := h.cursor_le_bound
  rw [h.size_eq, length_values]
  omega

theorem advance_fst (h : r.WellFormed) (visit : Visitor σ Int) (acc : σ) :
    (r.advance visit acc).1 = visit.first acc r.values := by
  have hle := h.cursor_le_bound
  rw [advance]
  split
  · rename_i hlt
    obtain ⟨n, hn⟩ : ∃ n, (r.bound - r.cursor).toNat = n + 1 := ⟨_, (Nat.succ_pred (by omega)).symm⟩
    rw [values_eq_ascending, hn, Nat.add_right_comm, ascending_succ]
    rfl
  · rename_i hlt
    have hz : (r.bound - r.cursor).toNat = 0 := by omega
    cases hp : r.pending <;> simp [values_eq_ascending, hz, hp, ascending_succ]

/-- The visitor decides nothing about what is left. -/
theorem advance_snd (r : Range) (visit : Visitor σ Int) (acc : σ) : (r.advance visit acc).2 =
    if r.cursor < r.bound then { r with cursor := r.width.wrap (r.cursor + 1) }
    else if r.pending then { r with pending := false } else r := by
  rw [advance]
  split
  · rfl
  · split <;> rfl

theorem values_advance (h : r.WellFormed) (visit : Visitor σ Int) (acc : σ) :
    (r.advance visit acc).2.values = r.values.tail := by
  have hle := h.cursor_le_bound
  rw [advance]
  split
  · rename_i hlt
    have hn : (r.bound - r.cursor).toNat = (r.bound - (r.cursor + 1)).toNat + 1 := by omega
    rw [Width.wrap_of_fits (h.cursor_succ_fits hlt)]
    simp only [values_eq_ascending]
    rw [hn, Nat.add_right_comm, ascending_succ]
    rfl
  · rename_i hlt
    have hz : (r.bound - r.cursor).toNat = 0 := by omega
    cases hp : r.pending <;> simp [values_eq_ascending, hz, hp, ascending_succ]

theorem WellFormed.advance (h : r.WellFormed) (visit : Visitor σ Int) (acc : σ) :
    (r.advance visit acc).2.WellFormed := by
  have hle := h.cursor_le_bound
  rw [Range.advance]
  split
  · rename_i hlt
    rw [Width.wrap_of_fits (h.cursor_succ_fits hlt)]
    exact h.narrow (by omega) (by omega) (by omega) (by rw [length_values]; omega)
  · split
    · exact h.narrow (by omega) hle (by omega) (by rw [length_values, Bool.toNat_false]; omega)
    · exact h

/-- Visiting upwards is visiting a list, as long as the cursor stays within the type. -/
theorem ascend_eq (w : Width) (visit : Visitor σ Int) (n : Nat) (acc : σ) (i : Int)
    (hi : w.Fits i) (hn : w.Fits (i + n)) :
    ascend w visit n acc i = ((ascending i n).foldlM visit acc).map (·, i + n) := by
  induction n generalizing acc i with
  | zero => simp [ascend, Except.map, pure, Except.pure]
  | succ n ih =>
    have hs : w.Fits (i + 1) := by
      simp only [Width.Fits] at *
      omega
    have he : i + ((n + 1 : Nat) : Int) = i + 1 + (n : Int) := by omega
    rw [ascending_succ, ascend]
    cases hv : visit acc i with
    | error acc' =>
      rw [Visitor.foldlM_cons_error hv]
      rfl
    | ok acc' =>
      have hh := ih acc' (i + 1) hs (he ▸ hn)
      rw [Visitor.foldlM_cons_ok hv, he, ← hh, Width.wrap_of_fits hs]

theorem drain_fst (h : r.WellFormed) (visit : Visitor σ Int) (acc : σ) :
    (r.drain visit acc).1 = r.values.foldlM visit acc := by
  have hle := h.cursor_le_bound
  have he : r.cursor + ((r.bound - r.cursor).toNat : Int) = r.bound := by omega
  rw [values_eq_append r hle]
  rw [drain]
  rw [ascend_eq _ _ _ _ _ h.cursor_fits (by rw [he]; exact h.bound_fits), he]
  cases hf : (ascending r.cursor (r.bound - r.cursor).toNat).foldlM visit acc with
  | error acc' =>
    rw [Visitor.foldlM_append_error hf]
    rfl
  | ok acc' =>
    rw [Visitor.foldlM_append_ok hf]
    cases hp : r.pending with
    | false => rfl
    | true => simp [Except.map, ascending_succ]

theorem drain_snd (visit : Visitor σ Int) (acc : σ) :
    (r.drain visit acc).2 = { r with cursor := r.bound, pending := false } := by
  rw [drain]
  split <;> rfl

theorem values_drain (visit : Visitor σ Int) (acc : σ) : (r.drain visit acc).2.values = [] := by
  simp [drain_snd, values_eq_ascending]

theorem WellFormed.drain (h : r.WellFormed) (visit : Visitor σ Int) (acc : σ) :
    (r.drain visit acc).2.WellFormed := by
  rw [drain_snd]
  exact h.narrow h.cursor_le_bound (Int.le_refl _) (Int.le_refl _) (by simp)

theorem WellFormed.splitPoint_fits (h : r.WellFormed) : r.width.Fits (splitPoint r.size) := by
  have hhalf := splitPoint_le_half r.size
  have hc := h.cursor_fits
  have hb := h.bound_fits
  have hp : r.pending.toNat ≤ 1 := Bool.toNat_le _
  have hmax := h.count_le
  rw [← h.size_eq] at hmax
  cases hw : r.width with
  | word32 =>
    have hs := h.size_eq
    rw [length_values] at hs
    simp only [hw, Width.Fits, Width.minValue, Width.maxValue] at hc hb ⊢
    -- The size need not be a value of the type, but a large range gives away an eighth only.
    unfold splitPoint halvingLimit largeRatio
    split <;> omega
  | word64 =>
    have hm := hmax 9223372036854775807 (by rw [hw]; rfl)
    simp only [Width.Fits, Width.minValue, Width.maxValue]
    omega

theorem WellFormed.splitPoint_mem (h : r.WellFormed) (hs : 2 ≤ r.size) :
    r.cursor < r.cursor + splitPoint r.size ∧ r.cursor + splitPoint r.size ≤ r.bound := by
  have hpos := splitPoint_pos hs
  have hhalf := splitPoint_le_half r.size
  have hp : r.pending.toNat ≤ 1 := Bool.toNat_le _
  have hsize := h.size_eq_sub
  omega

theorem WellFormed.split_fits (h : r.WellFormed) (hs : 2 ≤ r.size) :
    r.width.Fits (r.cursor + splitPoint r.size) := by
  have hc := h.cursor_fits
  have hb := h.bound_fits
  have hmid := h.splitPoint_mem hs
  simp only [Width.Fits] at *
  omega

theorem split_eq (h : r.WellFormed) : r.split =
    if r.size ≤ 1 then (none, r)
    else (some { r with bound := r.cursor + splitPoint r.size, pending := false },
      { r with cursor := r.cursor + splitPoint r.size }) := by
  rw [split]
  split
  · rfl
  · have hmid := h.split_fits (by omega)
    simp only [Width.wrap_of_fits h.splitPoint_fits, Width.wrap_of_fits hmid]

theorem split_none (h : r.WellFormed) (hn : r.split.1 = none) : r.split.2 = r := by
  rw [split_eq h] at hn ⊢
  split at hn
  · rw [if_pos ‹_›]
  · cases hn

theorem values_split (h : r.WellFormed) {p : Range} (hp : r.split.1 = some p) :
    p.values ++ r.split.2.values = r.values := by
  rw [split_eq h] at hp ⊢
  split at hp
  · cases hp
  · rename_i hsize
    cases hp
    have hmid := h.splitPoint_mem (by omega)
    have hn : (r.bound - r.cursor).toNat + r.pending.toNat =
        splitPoint r.size + ((r.bound - (r.cursor + splitPoint r.size)).toNat + r.pending.toNat) := by
      omega
    have hk : (r.cursor + splitPoint r.size - r.cursor).toNat = splitPoint r.size := by omega
    rw [if_neg hsize, values_eq_ascending r, hn, ascending_add]
    simp only [values_eq_ascending, hk, Bool.toNat_false, Nat.add_zero]

theorem WellFormed.split_eq_none_iff (h : r.WellFormed) : r.split.1 = none ↔ r.values.length ≤ 1 := by
  rw [← h.size_eq, split_eq h]
  by_cases hs : r.size ≤ 1 <;> simp [hs]

theorem WellFormed.length_front (h : r.WellFormed) {front : Range} (hp : r.split.1 = some front) :
    front.values.length = splitPoint r.values.length := by
  have hs := h.size_eq
  rw [split_eq h] at hp
  split at hp
  · cases hp
  · obtain rfl := Option.some.inj hp
    rw [length_values, ← hs, Bool.toNat_false]
    dsimp only
    omega

theorem split_ne_nil (h : r.WellFormed) {p : Range} (hp : r.split.1 = some p) :
    p.values ≠ [] ∧ r.split.2.values ≠ [] := by
  have hsize : 1 < r.values.length := by
    refine Nat.lt_of_not_le fun hle => ?_
    simp [h.split_eq_none_iff.mpr hle] at hp
  have hpos := splitPoint_pos hsize
  have hhalf := splitPoint_le_half r.values.length
  have hfront := h.length_front hp
  have hcut := congrArg List.length (values_split h hp)
  rw [List.length_append] at hcut
  exact ⟨List.ne_nil_of_length_pos (by omega), List.ne_nil_of_length_pos (by omega)⟩

theorem WellFormed.rest (h : r.WellFormed) : r.split.2.WellFormed := by
  rw [split_eq h]
  split
  · exact h
  · have hmid := h.splitPoint_mem (by omega)
    exact h.narrow (by omega) (by omega) (by omega) (by rw [length_values]; omega)

theorem WellFormed.front (h : r.WellFormed) {p : Range} (hp : r.split.1 = some p) : p.WellFormed := by
  rw [split_eq h] at hp
  split at hp
  · cases hp
  · cases hp
    have hmid := h.splitPoint_mem (by omega)
    exact h.narrow (by omega) (by omega) (by omega) (by rw [length_values, Bool.toNat_false]; omega)

theorem ofBounds_eq_ok_iff {w : Width} {lower upper : Int} {withUpper : Bool} : ofBounds w lower upper withUpper = .ok r ↔
    r = ⟨w, lower, upper, withUpper⟩ ∧ lower ≤ upper ∧
      ∀ m, w.maxCount = some m → (upper - lower).toNat + withUpper.toNat ≤ m := by
  rw [ofBounds]
  split
  · rename_i hlt
    simp [Int.not_le.mpr hlt]
  · rename_i hle
    cases hm : w.maxCount with
    | none => simp [Int.not_lt.mp hle, eq_comm]
    | some m =>
      dsimp only
      split
      · rename_i hlarge
        simp [Nat.not_le.mpr hlarge]
      · rename_i hcount
        simp [Int.not_lt.mp hle, Nat.not_lt.mp hcount, eq_comm]

/-- The checks of a new range accept the state of a range exactly when it is well formed. -/
theorem wellFormed_iff : r.WellFormed ↔ r.width.Fits r.cursor ∧ r.width.Fits r.bound ∧
    ofBounds r.width r.cursor r.bound r.pending = .ok r := by
  rw [ofBounds_eq_ok_iff]
  constructor
  · intro h
    refine ⟨h.cursor_fits, h.bound_fits, rfl, h.cursor_le_bound, fun m hm => ?_⟩
    have hcount := h.count_le m hm
    rwa [length_values] at hcount
  · rintro ⟨hc, hb, -, hle, hcount⟩
    exact ⟨hc, hb, hle, fun m hm => by rw [length_values]; exact hcount m hm⟩

theorem WellFormed.ofBounds {w : Width} {lower upper : Int} {withUpper : Bool} {r : Range}
    (hl : w.Fits lower) (hu : w.Fits upper) (h : ofBounds w lower upper withUpper = .ok r) :
    r.WellFormed := by
  obtain ⟨rfl, -⟩ := ofBounds_eq_ok_iff.mp h
  exact wellFormed_iff.mpr ⟨hl, hu, h⟩

theorem WellFormed.exhausted {w : Width} {i : Int} (h : w.Fits i) : (exhausted w i).WellFormed :=
  ⟨h, h, Int.le_refl _, by simp [Range.exhausted]⟩

theorem ofBounds_of_orPanic {w : Width} {lower upper : Int} {withUpper : Bool} {r : Range}
    (h : ofBoundsOrPanic w lower upper withUpper = .ok r) : ofBounds w lower upper withUpper = .ok r :=
  mapError_eq_ok_iff.mp h

theorem WellFormed.decode {w : Width} {v : Json} {r : Range} (h : decode w v = .ok r) :
    r.WellFormed := by
  rw [Range.decode] at h
  split at h
  · rename_i lower upper withUpper _
    split at h
    · rename_i hf
      exact .ofBounds hf.1 hf.2 (mapError_eq_ok_iff.mp h)
    · cases h
  · cases h

theorem Step.wellFormed {r t : Range} (hs : Step r t) (h : r.WellFormed) : t.WellFormed := by
  cases hs with
  | advance visit acc => exact h.advance visit acc
  | drain visit acc => exact h.drain visit acc
  | rest => exact h.rest
  | front hp => exact h.front hp

theorem Step.sublist {r t : Range} (hs : Step r t) (h : r.WellFormed) :
    t.values.Sublist r.values := by
  cases hs with
  | advance visit acc =>
    rw [values_advance h]
    exact List.tail_sublist r.values
  | drain visit acc =>
    rw [values_drain]
    exact List.nil_sublist r.values
  | rest =>
    cases hp : r.split.1 with
    | none => exact (split_none h hp).symm ▸ List.Sublist.refl _
    | some p =>
      rw [← values_split h hp]
      exact List.sublist_append_right p.values _
  | front hp =>
    rw [← values_split h hp]
    exact List.sublist_append_left _ _

theorem Step.size_le {r t : Range} (hs : Step r t) (h : r.WellFormed) : t.size ≤ r.size := by
  rw [h.size_eq, (hs.wellFormed h).size_eq]
  exact (hs.sublist h).length_le

theorem step_advance (r : Range) (visit : Visitor σ Int) (acc : σ) : Step r (r.advance visit acc).2 := by
  have hs := Step.advance (r := r) (Visitor.always fun n _ => n) 0
  rwa [advance_snd] at hs ⊢

theorem step_drain (r : Range) (visit : Visitor σ Int) (acc : σ) : Step r (r.drain visit acc).2 := by
  have hs := Step.drain (r := r) (Visitor.always fun n _ => n) 0
  rwa [drain_snd] at hs ⊢

theorem Reachable.wellFormed {r : Range} (h : Reachable r) : r.WellFormed := by
  induction h with
  | ofBounds hl hu h => exact .ofBounds hl hu h
  | halfOpen hl hu h =>
    rw [Range.halfOpen] at h
    split at h
    · cases h; exact .exhausted hl
    · exact .ofBounds hl hu (ofBounds_of_orPanic h)
  | closed hl hu h =>
    rw [Range.closed] at h
    split at h
    · cases h; exact .exhausted hl
    · exact .ofBounds hl hu (ofBounds_of_orPanic h)
  | decode h => exact .decode h
  | step _ hs ih => exact hs.wellFormed ih

end Range

end SplitTraversal
