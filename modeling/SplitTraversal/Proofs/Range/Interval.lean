import Mathlib.Data.Finset.Sort
import Mathlib.Data.Int.ConditionallyCompleteOrder
import Mathlib.Data.Int.Interval
import Mathlib.Order.ConditionallyCompleteLattice.Basic
import SplitTraversal.Proofs.Sequence.Leaves

/-!
New ranges and the intervals that they stand for. A constructor is given two integers of its type. What it
makes visits the integers between them from the least to the greatest; and it refuses only bounds that are
inverted and intervals of more integers than a 64-bit range may hold.
-/

namespace SplitTraversal

namespace Range

def interval (lower upper : Int) (withUpper : Bool) : Finset Int :=
  -- Not every order of the integers that instance search can find computes; this one does.
  letI : Preorder Int := Int.instLinearOrder.toPreorder
  if withUpper then Finset.Icc lower upper else Finset.Ico lower upper

/-- More integers than a range of the width may hold. 32 bits set no limit. -/
def Overfull (w : Width) (S : Finset Int) : Prop := w = .word64 ∧ 9223372036854775807 < S.card

instance (w : Width) (S : Finset Int) : Decidable (Overfull w S) :=
  inferInstanceAs (Decidable (_ ∧ _))

/-- `r` stands for `S`: advances, drains and recursive splitting all visit the integers of `S` from the
least to the greatest. -/
structure Denotes (r : Range) (S : Finset Int) : Prop where
  yields_iff : ∀ ks, Sequence.Yields (.range r) ks ↔ ks = S.sort
  drain_eq : ∀ {σ : Type v} (visit : Visitor σ Int) (acc : σ),
    (r.drain visit acc).1 = S.sort.foldlM visit acc
  splitsInto_iff : ∀ bound (ls : List (Sequence Int)),
    Sequence.SplitsInto bound (.range r) ls ↔ ls = Sequence.leaves bound (.range r)
  leaves_drained : ∀ bound,
    (Sequence.leaves bound (.range r : Sequence Int)).flatMap (fun l => l.toArray.toList) = S.sort
  /-- Splitting to the end leaves no two integers in one piece. -/
  leaf_size_le : ∀ l ∈ Sequence.leaves 0 (.range r : Sequence Int), l.toArray.size ≤ 1

/-- What a constructor that returns no errors makes of two bounds with `S` between them: a range that stands
for `S`, or the panic about an overfull one. -/
structure Encloses (w : Width) (lower upper : Int) (S : Finset Int) (made : Except Failure Range) : Prop where
  panics_iff : made = .error (.panic (Error.oversized lower upper).message) ↔ lower ≤ upper ∧ Overfull w S
  accepts : ¬ (lower ≤ upper ∧ Overfull w S) → ∃ r, made = .ok r ∧ r.width = w ∧ Denotes.{v} r S

variable {r : Range} {w : Width} {lower upper k : Int} {withUpper : Bool}

theorem mem_interval : k ∈ interval lower upper withUpper ↔ lower ≤ k ∧ k < upper + withUpper.toNat := by
  cases withUpper with
  | false => simp [interval]
  | true => simp only [interval, if_true, Finset.mem_Icc, Bool.toNat_true, Int.natCast_one, Int.lt_add_one_iff]

theorem interval_eq_empty (h : upper + withUpper.toNat ≤ lower) : interval lower upper withUpper = ∅ := by
  ext k
  simp only [mem_interval, Finset.notMem_empty, iff_false]
  omega

theorem card_interval (h : lower ≤ upper) :
    (interval lower upper withUpper).card = (upper - lower).toNat + withUpper.toNat := by
  cases withUpper <;> simp [interval]
  omega

theorem values_eq_sort (h : r.cursor ≤ r.bound) :
    r.values = (interval r.cursor r.bound r.pending).sort := by
  have hlt := r.pairwise_values
  have hset : r.values.toFinset = interval r.cursor r.bound r.pending := by
    ext k
    rw [List.mem_toFinset, values_eq_ascending, mem_ascending, mem_interval]
    omega
  rw [← hset]
  symm
  apply (List.toFinset_sort (· ≤ ·) (hlt.imp ne_of_lt)).mpr
  exact hlt.imp le_of_lt

theorem WellFormed.denotes (h : r.WellFormed) :
    Denotes.{v} r (interval r.cursor r.bound r.pending) := by
  have hw : (Sequence.range r : Sequence Int).WellFormed := h
  have hn : (Sequence.range r : Sequence Int).EachSupplied fun _ => False := trivial
  have hvalues := values_eq_sort h.cursor_le_bound
  have hrem : (Sequence.range r : Sequence Int).remaining =
      (interval r.cursor r.bound r.pending).sort := by
    show r.values.map id = _
    rw [List.map_id, hvalues]
  have hleaves (bound : Nat) : Sequence.SplitsInto bound (.range r)
      (Sequence.leaves bound (.range r : Sequence Int)) := (Sequence.splitsInto_iff hw).mpr rfl
  refine ⟨fun ks => ?_, fun visit acc => ?_, fun bound ls => Sequence.splitsInto_iff hw,
    fun bound => ?_, fun l hm => ?_⟩
  · rw [hw.conserves.yields_iff, hrem]
  · rw [drain_fst h, hvalues]
  · rw [(hleaves bound).drained hw, hrem]
  · rw [Sequence.toArray_eq ((hleaves 0).wellFormed hw l hm), List.size_toArray]
    exact (hleaves 0).length_le_one hw hn l hm

theorem not_overfull_empty : ¬ Overfull w ∅ := by
  simp [Overfull]

theorem overfull_iff (h : lower ≤ upper) : Overfull w (interval lower upper withUpper) ↔
    ∃ m, w.maxCount = some m ∧ m < (upper - lower).toNat + withUpper.toNat := by
  rw [Overfull, card_interval h]
  cases w <;> simp [Width.maxCount]

theorem ofBounds_eq (w : Width) (lower upper : Int) (withUpper : Bool) : ofBounds w lower upper withUpper =
    if upper < lower then .error (.inverted lower upper)
    else if Overfull w (interval lower upper withUpper) then .error (.oversized lower upper)
    else .ok ⟨w, lower, upper, withUpper⟩ := by
  rw [ofBounds]
  split
  · rfl
  · rename_i hle
    simp only [overfull_iff (Int.not_lt.mp hle)]
    cases w.maxCount <;> simp

theorem ofBounds_eq_inverted_iff :
    ofBounds w lower upper withUpper = .error (.inverted lower upper) ↔ upper < lower := by
  rw [ofBounds_eq]
  by_cases hlt : upper < lower
  · simp [hlt]
  · by_cases hlimit : Overfull w (interval lower upper withUpper) <;> simp [hlt, hlimit]

theorem ofBounds_eq_oversized_iff : ofBounds w lower upper withUpper = .error (.oversized lower upper) ↔
    lower ≤ upper ∧ Overfull w (interval lower upper withUpper) := by
  rw [ofBounds_eq, ← Int.not_lt]
  by_cases hlt : upper < lower
  · simp [hlt]
  · by_cases hlimit : Overfull w (interval lower upper withUpper) <;> simp [hlt, hlimit]

theorem ofBounds_accepts (hl : w.Fits lower) (hu : w.Fits upper) (hle : lower ≤ upper)
    (hlimit : ¬ Overfull w (interval lower upper withUpper)) :
    ∃ r, ofBounds w lower upper withUpper = .ok r ∧ r.width = w ∧
      Denotes.{v} r (interval lower upper withUpper) := by
  have hok : ofBounds w lower upper withUpper = .ok ⟨w, lower, upper, withUpper⟩ := by
    rw [ofBounds_eq, if_neg (Int.not_lt.mpr hle), if_neg hlimit]
  exact ⟨_, hok, rfl, (WellFormed.ofBounds hl hu hok).denotes⟩

theorem Encloses.ofBoundsOrPanic (hl : w.Fits lower) (hu : w.Fits upper) (hle : lower ≤ upper)
    (withUpper : Bool) :
    Encloses.{v} w lower upper (interval lower upper withUpper)
      (ofBoundsOrPanic w lower upper withUpper) where
  panics_iff := by
    rw [Range.ofBoundsOrPanic, mapError_eq_error_iff, ofBounds_eq, if_neg (Int.not_lt.mpr hle)]
    by_cases hlimit : Overfull w (interval lower upper withUpper) <;> simp [hlimit, hle]
  accepts hlimit := by
    obtain ⟨r, hok, hr⟩ := ofBounds_accepts hl hu hle fun h => hlimit ⟨hle, h⟩
    exact ⟨r, mapError_eq_ok_iff.mpr hok, hr⟩

theorem Encloses.exhausted (hl : w.Fits lower) : Encloses.{v} w lower upper ∅ (.ok (exhausted w lower)) where
  panics_iff := by simp [not_overfull_empty]
  accepts _ := by
    have hd := (WellFormed.exhausted hl).denotes
    rw [interval_eq_empty (by simp [Range.exhausted])] at hd
    exact ⟨_, rfl, rfl, hd⟩

theorem halfOpen_encloses (hl : w.Fits lower) (hu : w.Fits upper) :
    Encloses.{v} w lower upper (interval lower upper false) (halfOpen w lower upper) := by
  rw [halfOpen]
  split
  · rename_i hle
    rw [interval_eq_empty (by simpa using hle)]
    exact .exhausted hl
  · exact .ofBoundsOrPanic hl hu (by omega) false

theorem closed_encloses (hl : w.Fits lower) (hu : w.Fits upper) :
    Encloses.{v} w lower upper (interval lower upper true) (closed w lower upper) := by
  rw [closed]
  split
  · rename_i hlt
    rw [interval_eq_empty (by simpa [Int.add_one_le_iff] using hlt)]
    exact .exhausted hl
  · exact .ofBoundsOrPanic hl hu (by omega) true

/-- New ranges, for all bounds of either width. With errors, inverted bounds are refused first and then an
overfull interval; any other is made into a range that stands for it. Without errors the same refusals are
panics with the message of the error. The half-open and the closed range take inverted bounds to enclose
nothing, and in 32 bits they never fail. -/
theorem construction_exact (hl : w.Fits lower) (hu : w.Fits upper) :
    (∀ withUpper,
      (ofBounds w lower upper withUpper = .error (.inverted lower upper) ↔ upper < lower) ∧
      (ofBounds w lower upper withUpper = .error (.oversized lower upper) ↔
        lower ≤ upper ∧ Overfull w (interval lower upper withUpper)) ∧
      (lower ≤ upper → ¬ Overfull w (interval lower upper withUpper) →
        ∃ r, ofBounds w lower upper withUpper = .ok r ∧ r.width = w ∧
          Denotes.{v} r (interval lower upper withUpper)) ∧
      (∀ r, ofBoundsOrPanic w lower upper withUpper = .ok r ↔ ofBounds w lower upper withUpper = .ok r) ∧
      (∀ f, ofBoundsOrPanic w lower upper withUpper = .error f ↔
        ∃ e, ofBounds w lower upper withUpper = .error e ∧ f = .panic e.message)) ∧
    Encloses.{v} w lower upper (interval lower upper false) (halfOpen w lower upper) ∧
    Encloses.{v} w lower upper (interval lower upper true) (closed w lower upper) ∧
    (w = .word32 → ∃ r t, halfOpen w lower upper = .ok r ∧ closed w lower upper = .ok t) := by
  have hhalf := halfOpen_encloses.{v} hl hu
  have hclosed := closed_encloses.{v} hl hu
  refine ⟨fun withUpper => ⟨ofBounds_eq_inverted_iff, ofBounds_eq_oversized_iff, ofBounds_accepts hl hu,
    fun r => mapError_eq_ok_iff, fun f => mapError_eq_error_iff⟩, hhalf, hclosed, fun hw => ?_⟩
  subst hw
  obtain ⟨r, hr, -⟩ := hhalf.accepts (by simp [Overfull])
  obtain ⟨t, ht, -⟩ := hclosed.accepts (by simp [Overfull])
  exact ⟨r, t, hr, ht⟩

/-- From -1 on, the half-open range has as many integers as a 64-bit range may hold. With its upper bound it
would have one more. -/
theorem construction_exact_limit :
    Width.word64.Fits (-1) ∧ Width.word64.Fits 9223372036854775806 ∧
      halfOpen .word64 (-1) 9223372036854775806 = .ok ⟨.word64, -1, 9223372036854775806, false⟩ ∧
      Denotes.{0} ⟨.word64, -1, 9223372036854775806, false⟩ (interval (-1) 9223372036854775806 false) ∧
      closed .word64 (-1) 9223372036854775806 =
        .error (.panic "range -1..9223372036854775806 holds more than i64::MAX elements") ∧
      ofBounds .word64 (-1) 9223372036854775806 true = .error (.oversized (-1) 9223372036854775806) := by
  have hl : Width.word64.Fits (-1) := by decide
  have hu : Width.word64.Fits 9223372036854775806 := by decide
  obtain ⟨hof, hhalf, hclosed, -⟩ := construction_exact.{0} hl hu
  have hmore : Overfull .word64 (interval (-1) 9223372036854775806 true) := by
    rw [Overfull, card_interval (by decide)]
    decide
  have hfull : ¬ Overfull .word64 (interval (-1) 9223372036854775806 false) := by
    rw [Overfull, card_interval (by decide)]
    decide
  have hmade : halfOpen .word64 (-1) 9223372036854775806 =
      .ok ⟨.word64, -1, 9223372036854775806, false⟩ := by decide
  obtain ⟨r, hr, -, hd⟩ := hhalf.accepts fun h => hfull h.2
  obtain rfl := Except.ok.inj (hr.symm.trans hmade)
  exact ⟨hl, hu, hmade, hd, hclosed.panics_iff.mpr ⟨by decide, hmore⟩, (hof true).2.1.mpr ⟨by decide, hmore⟩⟩

end Range

end SplitTraversal
