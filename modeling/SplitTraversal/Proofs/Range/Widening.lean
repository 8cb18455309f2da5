import SplitTraversal.Proofs.Range.Arithmetic
import SplitTraversal.Range.Dialogue

/-!
Ranges of 32 and of 64 bits run in lockstep. From bounds that fit 32 bits both widths make the same range or
fail alike, and from then on no request tells them apart: the answers are the same and the pieces have the
same fields. Widening commutes with each operation on a well-formed range, because there every sum stays
within 32 bits and so neither width wraps.
-/

namespace SplitTraversal

theorem Width.Fits.word64 {i : Int} (h : word32.Fits i) : word64.Fits i := by
  simp only [Fits, minValue, maxValue] at *
  omega

namespace Range

variable {r t : Range} {σ : Type v}

@[simp] theorem values_widen (r : Range) : r.widen.values = r.values := rfl
@[simp] theorem size_widen (r : Range) : r.widen.size = r.size := rfl

theorem widen_of_word64 (hw : r.width = .word64) : r.widen = r := by
  obtain ⟨w, c, b, p⟩ := r
  obtain rfl : w = .word64 := hw
  rfl

theorem WellFormed.widen (h : r.WellFormed) : r.widen.WellFormed := by
  cases hw : r.width with
  | word64 => rwa [widen_of_word64 hw]
  | word32 =>
    have hc := h.cursor_fits
    have hb := h.bound_fits
    have hsize := h.size_le_word32 hw
    rw [hw] at hc hb
    refine ⟨hc.word64, hb.word64, h.cursor_le_bound, fun m hm => ?_⟩
    obtain rfl : 9223372036854775807 = m := Option.some.inj hm
    rw [values_widen, ← h.size_eq]
    omega

theorem WellFormed.advance_widen (h : r.WellFormed) (visit : Visitor σ Int) (acc : σ) :
    r.widen.advance visit acc = (r.advance visit acc).map id Range.widen := by
  refine Prod.ext ?_ ?_
  · rw [advance_fst h.widen, Prod.map_fst, advance_fst h]
    rfl
  · rw [Prod.map_snd, advance_snd, advance_snd]
    by_cases hlt : r.cursor < r.bound
    · have hnarrow := Width.wrap_of_fits (h.cursor_succ_fits hlt)
      have hwide := Width.wrap_of_fits (h.widen.cursor_succ_fits hlt)
      simp only [Range.widen] at hwide ⊢
      simp only [hlt, if_true, hnarrow, hwide]
    · by_cases hp : r.pending <;> simp [Range.widen, hlt, hp]

theorem WellFormed.drain_widen (h : r.WellFormed) (visit : Visitor σ Int) (acc : σ) :
    r.widen.drain visit acc = (r.drain visit acc).map id Range.widen := by
  refine Prod.ext ?_ ?_
  · rw [drain_fst h.widen, Prod.map_fst, drain_fst h]
    rfl
  · rw [Prod.map_snd, drain_snd, drain_snd]
    rfl

theorem WellFormed.split_widen (h : r.WellFormed) :
    r.widen.split = r.split.map (Option.map Range.widen) Range.widen := by
  rw [split_eq h.widen, split_eq h, size_widen]
  split <;> rfl

/-- Widening a range widens the pieces that it leaves and changes no answer. -/
theorem WellFormed.respond_widen (h : r.WellFormed) (request : Request.{v}) :
    r.widen.respond request = (r.respond request).map id (List.map Range.widen) := by
  cases request with
  | advance visit acc =>
    rw [Range.respond, h.advance_widen]
    rfl
  | drain visit acc =>
    rw [Range.respond, h.drain_widen]
    rfl
  | split =>
    rw [Range.respond, h.split_widen, Range.respond]
    cases hp : r.split.1 <;> simp [hp]
  | _ => rfl

theorem WellFormed.respond (h : r.WellFormed) (request : Request.{v}) :
    ∀ t ∈ (r.respond request).2, t.WellFormed := by
  intro t ht
  cases request with
  | advance visit acc =>
    obtain rfl := List.mem_singleton.mp ht
    exact h.advance visit acc
  | drain visit acc =>
    obtain rfl := List.mem_singleton.mp ht
    exact h.drain visit acc
  | split =>
    obtain hf | hr := List.mem_append.mp ht
    · exact h.front (Option.mem_toList.mp hf)
    · obtain rfl := List.mem_singleton.mp hr
      exact h.rest
  | _ =>
    obtain rfl := List.mem_singleton.mp ht
    exact h

variable {rs : List Range}

theorem ask_widen (h : ∀ r ∈ rs, r.WellFormed) (i : Nat) (request : Request.{v}) :
    ask (rs.map widen) i request = (ask rs i request).map id (List.map widen) := by
  cases hr : rs[i]? with
  | none => simp [ask, hr]
  | some r =>
    have hw := (h r (List.mem_of_getElem? hr)).respond_widen request
    simp only [ask, List.getElem?_map, hr, Option.map_some, hw]
    simp [Prod.ext_iff]

theorem ask_wellFormed (h : ∀ r ∈ rs, r.WellFormed) (i : Nat) (request : Request.{v}) :
    ∀ t ∈ (ask rs i request).2, t.WellFormed := by
  cases hr : rs[i]? with
  | none => simpa [ask, hr] using h
  | some r =>
    have hw := (h r (List.mem_of_getElem? hr)).respond request
    intro t ht
    simp only [ask, hr, Prod.map_snd, List.mem_append] at ht
    obtain (ht | ht) | ht := ht
    · exact h t (List.mem_of_mem_take ht)
    · exact hw t ht
    · exact h t (List.mem_of_mem_drop ht)

theorem askAll_widen (h : ∀ r ∈ rs, r.WellFormed) (requests : List (Nat × Request.{v})) :
    askAll (rs.map widen) requests = (askAll rs requests).map id (List.map widen) := by
  induction requests generalizing rs with
  | nil => rfl
  | cons first more ih =>
    obtain ⟨i, request⟩ := first
    have hask := ask_widen h i request
    have hh := ih (ask_wellFormed h i request)
    simp only [askAll, hask, Prod.map_fst, Prod.map_snd, hh]
    rfl

variable {lower upper : Int}

theorem ofBounds_word64 (hl : Width.word32.Fits lower) (hu : Width.word32.Fits upper) (withUpper : Bool) :
    ofBounds .word64 lower upper withUpper = (ofBounds .word32 lower upper withUpper).map widen := by
  by_cases hlt : upper < lower
  · simp [ofBounds, hlt, Except.map]
  · have hok : ofBounds .word32 lower upper withUpper = .ok ⟨.word32, lower, upper, withUpper⟩ := by
      simp [ofBounds, hlt, Width.maxCount]
    have hwide := (WellFormed.ofBounds hl hu hok).widen
    rw [hok]
    exact (wellFormed_iff.mp hwide).2.2

theorem ofBoundsOrPanic_word64 (hl : Width.word32.Fits lower) (hu : Width.word32.Fits upper)
    (withUpper : Bool) : ofBoundsOrPanic .word64 lower upper withUpper =
      (ofBoundsOrPanic .word32 lower upper withUpper).map widen := by
  rw [ofBoundsOrPanic, ofBounds_word64 hl hu, ofBoundsOrPanic]
  cases ofBounds .word32 lower upper withUpper <;> rfl

theorem make_word64 (hl : Width.word32.Fits lower) (hu : Width.word32.Fits upper) (form : RangeForm) :
    form.make .word64 lower upper = (form.make .word32 lower upper).map widen := by
  cases form with
  | checked withUpper =>
    rw [RangeForm.make, ofBounds_word64 hl hu, RangeForm.make]
    cases ofBounds .word32 lower upper withUpper <;> rfl
  | orPanic withUpper => exact ofBoundsOrPanic_word64 hl hu withUpper
  | halfOpen =>
    rw [RangeForm.make, halfOpen, ofBoundsOrPanic_word64 hl hu, RangeForm.make, halfOpen]
    split <;> rfl
  | closed =>
    rw [RangeForm.make, closed, ofBoundsOrPanic_word64 hl hu, RangeForm.make, closed]
    split <;> rfl

theorem decode_word64 {v : Json} (h : (Origin.checkpoint v).Narrow) :
    decode .word64 v = (decode .word32 v).map widen := by
  rw [decode, decode]
  split
  · rename_i lower upper pending hfields
    obtain ⟨hl, hu⟩ := h lower upper pending hfields
    rw [if_pos ⟨hl.word64, hu.word64⟩, if_pos ⟨hl, hu⟩, ofBounds_word64 hl hu]
    cases ofBounds .word32 lower upper pending <;> rfl
  · rfl

namespace Origin

variable {o : Origin}

theorem Narrow.make_word64 (h : o.Narrow) : o.make .word64 = (o.make .word32).map widen := by
  cases o with
  | bounds form lower upper => exact Range.make_word64 h.1 h.2 form
  | checkpoint v =>
    rw [make, decode_word64 h, make]
    cases decode .word32 v <;> rfl

theorem Narrow.reachable (h : o.Narrow) (hr : o.make .word32 = .ok r) : Reachable r := by
  cases o with
  | bounds form lower upper =>
    cases form with
    | checked withUpper => exact .ofBounds h.1 h.2 (mapError_eq_ok_iff.mp hr)
    | orPanic withUpper => exact .ofBounds h.1 h.2 (ofBounds_of_orPanic hr)
    | halfOpen => exact .halfOpen h.1 h.2 hr
    | closed => exact .closed h.1 h.2 hr
  | checkpoint v => exact .decode (mapError_eq_ok_iff.mp hr)

/-- The two widths run in lockstep. From bounds that fit 32 bits, given or read from a checkpoint, both fail
with the same failure or both make a range; and then every list of requests to the range and to its pieces,
abandoned traversals included, is answered alike, and leaves pieces with the same fields in the same
places. -/
theorem lockstep (h : o.Narrow) :
    (∃ f, o.make .word32 = .error f ∧ o.make .word64 = .error f) ∨
    ∃ narrow wide, o.make .word32 = .ok narrow ∧ o.make .word64 = .ok wide ∧
      ∀ requests : List (Nat × Request.{v}),
        (askAll [wide] requests).1 = (askAll [narrow] requests).1 ∧
        (askAll [wide] requests).2 = (askAll [narrow] requests).2.map widen := by
  have hmake := h.make_word64
  cases hr : o.make .word32 with
  | error f =>
    rw [hr] at hmake
    exact .inl ⟨f, rfl, hmake⟩
  | ok r =>
    rw [hr] at hmake
    refine .inr ⟨r, r.widen, rfl, hmake, fun requests => ?_⟩
    have hw : ∀ t ∈ [r], t.WellFormed := by simpa using (h.reachable hr).wellFormed
    have hh := askAll_widen hw requests
    rw [List.map_singleton] at hh
    rw [hh]
    exact ⟨rfl, rfl⟩

/-- All values of 32 bits, more than 32 bits can count. They are split, the rest is advanced by a visitor that
raises, the front is drained by one that raises at its second integer, and the rest is split again. -/
theorem lockstep_full :
    let o := Origin.bounds .closed (-2147483648) 2147483647
    let requests : List (Nat × Request.{0}) := [(0, .split), (1, .advance Visitor.refuse ()),
      (0, .drain (Visitor.recordFirst 1) #[]), (1, .split), (2, .encode)]
    o.Narrow ∧ o.make .word32 = .ok ⟨.word32, -2147483648, 2147483647, true⟩ ∧
      ∃ wide, o.make .word64 = .ok wide ∧
        (askAll [wide] requests).2 = [⟨.word64, -1610612736, -1610612736, false⟩,
          ⟨.word64, -1610612735, -1140850688, false⟩, ⟨.word64, -1140850688, 2147483647, true⟩] := by
  intro o requests
  have hn : o.Narrow := ⟨by decide, by decide⟩
  have hmade : o.make .word32 = .ok ⟨.word32, -2147483648, 2147483647, true⟩ := rfl
  obtain ⟨f, hf, -⟩ | ⟨narrow, wide, hnarrow, hwide, hrun⟩ := lockstep.{0} hn
  · cases hmade.symm.trans hf
  · obtain rfl := Except.ok.inj (hmade.symm.trans hnarrow)
    exact ⟨hn, hmade, wide, hwide, (hrun requests).2.trans (by decide)⟩

end Origin

end Range

end SplitTraversal
