import SplitTraversal.Proofs.Sequence.ExactSize

/-!
Visitors that raise. An advance leaves the same state whether or not its visitor raises. A drain that is
abandoned has finished the leaves before the one that it was in; of that leaf a supplied one still owes
what lies behind the element that the visitor raised on, any other leaf owes nothing, and the leaves
after it have not been touched.
-/

namespace SplitTraversal

namespace Sequence

variable {α : Type u} {σ : Type v} {τ : Type w} {s a b : Sequence α} {o : Bool}

def parts : Sequence α → List (Sequence α)
  | both a b _ => a.parts ++ b.parts
  | firstOnly a => a.parts
  | secondOnly b _ => b.parts
  | s => [s]

theorem Counting.parts_eq (hc : s.Counting) : s.parts = [s] := by
  cases s with
  | supplied | both | firstOnly | secondOnly => cases hc
  | _ => rfl

variable [Numeral α] {visit : Visitor σ α} {acc acc' e : σ} {k : Nat} {x : α}

theorem flatMap_parts (s : Sequence α) : s.parts.flatMap remaining = s.remaining := by
  induction s with
  | both a b o iha ihb => rw [parts, List.flatMap_append, iha, ihb, remaining]
  | firstOnly a ih => exact ih
  | secondOnly b o ih => exact ih
  | _ => exact List.append_nil _

theorem advance_snd (h : s.WellFormed) (visit : Visitor σ α) (acc : σ) (other : Visitor τ α)
    (start : τ) : (s.advance visit acc).2 = (s.advance other start).2 := by
  induction s with
  | range r =>
    have hr := r.advance_snd (fun acc i => visit acc (Numeral.ofInt i)) acc
    rw [← r.advance_snd (fun acc i => other acc (Numeral.ofInt i)) start] at hr
    exact congrArg range hr
  | empty => rfl
  | inline s =>
    have hs := (s.advance_snd visit acc).trans (s.advance_snd other start).symm
    exact congrArg inline hs
  | built b =>
    cases b with
    | inline s =>
      have hs := (s.advance_snd visit acc).trans (s.advance_snd other start).symm
      exact congrArg (built ∘ Built.inline) hs
    | buffered q =>
      exact congrArg (built ∘ Built.buffered) (q.advance_snd visit acc other start)
  | buffer q => exact congrArg buffer (q.advance_snd visit acc other start)
  | supplied s => exact congrArg supplied (s.advance_snd.trans s.advance_snd.symm)
  | both a b o iha ihb =>
    by_cases hr : a.remaining = []
    · rw [advance_both_nil h.1 hr, advance_both_nil h.1 hr]
      exact congrArg (secondOnly · o) (ihb h.2)
    · rw [advance_both_cons h.1 hr, advance_both_cons h.1 hr]
      exact congrArg (both · b o) (iha h.1)
  | firstOnly a ih => exact congrArg firstOnly (ih h)
  | secondOnly b o ih => exact congrArg (secondOnly · o) (ih h)

theorem drain_snd_of_ok {other : Visitor τ α} {start stop : τ} (h : s.WellFormed)
    (hok : s.remaining.foldlM visit acc = .ok acc')
    (hother : s.remaining.foldlM other start = .ok stop) :
    (s.drain visit acc).2 = (s.drain other start).2 := by
  induction s generalizing acc acc' start stop with
  | range r => exact congrArg range ((Range.drain_snd _ _).trans (Range.drain_snd _ _).symm)
  | empty => rfl
  | inline s => exact congrArg inline ((s.drain_snd visit acc).trans (s.drain_snd other start).symm)
  | built b =>
    cases b with
    | inline s =>
      have hs := (s.drain_snd visit acc).trans (s.drain_snd other start).symm
      exact congrArg (built ∘ Built.inline) hs
    | buffered q => rfl
  | buffer q => rfl
  | supplied s =>
    have hs := (Supplied.drainItems_of_ok hok).trans (Supplied.drainItems_of_ok hother).symm
    exact congrArg (fun items => supplied { s with items := items }) hs
  | both a b o iha ihb =>
    obtain ⟨acc₁, ha, hb⟩ := Visitor.foldlM_append_eq_ok.mp hok
    obtain ⟨start₁, hc, hd⟩ := Visitor.foldlM_append_eq_ok.mp hother
    rw [drain_both_ok ((drain_fst h.1 visit acc).trans ha),
      drain_both_ok ((drain_fst h.1 other start).trans hc)]
    exact congrArg₂ (both · · o) (iha h.1 ha hc) (ihb h.2 hb hd)
  | firstOnly a ih => exact congrArg firstOnly (ih h hok hother)
  | secondOnly b o ih => exact congrArg (secondOnly · o) (ih h hok hother)

/-- `t` is what is left of `s` when a drain is abandoned at the element number `k`. The leaves before
the one that holds this element owe nothing any more and those after it are untouched; the leaf itself
owes what lies behind the element if a caller supplied it, and nothing otherwise. -/
def Interrupted (s : Sequence α) (k : Nat) (t : Sequence α) : Prop :=
  ∃ before leaf after before' leaf' j,
    s.parts = before ++ leaf :: after ∧ t.parts = before' ++ leaf' :: after ∧
    k = (before.flatMap remaining).length + j ∧ j < leaf.remaining.length ∧
    before'.flatMap remaining = [] ∧
    (leaf.Counting ∧ leaf'.remaining = [] ∨
      ∃ i, leaf = supplied i ∧ leaf'.remaining = leaf.remaining.drop (j + 1))

theorem Interrupted.sublist {t : Sequence α} (h : Interrupted s k t) :
    t.remaining.Sublist (s.remaining.drop (k + 1)) := by
  obtain ⟨before, leaf, after, before', leaf', j, hs, ht, rfl, hj, hnil, hleaf⟩ := h
  have hd : s.remaining.drop ((before.flatMap remaining).length + j + 1) =
      leaf.remaining.drop (j + 1) ++ after.flatMap remaining := by
    rw [← flatMap_parts s, hs, List.flatMap_append, List.flatMap_cons, Nat.add_assoc,
      List.drop_length_add_append, List.drop_append_of_le_length hj]
  have hr : t.remaining = leaf'.remaining ++ after.flatMap remaining := by
    rw [← flatMap_parts t, ht, List.flatMap_append, List.flatMap_cons, hnil, List.nil_append]
  have hsub : leaf'.remaining.Sublist (leaf.remaining.drop (j + 1)) := by
    obtain ⟨_, he⟩ | ⟨i, _, he⟩ := hleaf
    · exact he.symm ▸ List.nil_sublist _
    · exact he.symm ▸ List.Sublist.refl _
  rw [hd, hr]
  exact hsub.append_right _

theorem Interrupted.of_parts {t : Sequence α} (hs : a.parts = s.parts) (ht : b.parts = t.parts)
    (h : Interrupted s k t) : Interrupted a k b := by
  rw [Interrupted]
  rwa [hs, ht]

theorem Interrupted.append_right {t : Sequence α} (h : Interrupted s k t) (rest : List (Sequence α))
    (ha : a.parts = s.parts ++ rest) (hb : b.parts = t.parts ++ rest) : Interrupted a k b := by
  obtain ⟨before, leaf, after, before', leaf', j, hs, ht, hk, hj, hnil, hleaf⟩ := h
  refine ⟨before, leaf, after ++ rest, before', leaf', j, ?_, ?_, hk, hj, hnil, hleaf⟩
  · rw [ha, hs, List.append_assoc, List.cons_append]
  · rw [hb, ht, List.append_assoc, List.cons_append]

theorem Interrupted.append_left {t : Sequence α} (h : Interrupted s k t)
    {front front' : List (Sequence α)} (hfront : front'.flatMap remaining = [])
    (ha : a.parts = front ++ s.parts) (hb : b.parts = front' ++ t.parts) :
    Interrupted a ((front.flatMap remaining).length + k) b := by
  obtain ⟨before, leaf, after, before', leaf', j, hs, ht, rfl, hj, hnil, hleaf⟩ := h
  refine ⟨front ++ before, leaf, after, front' ++ before', leaf', j, ?_, ?_, ?_, hj, ?_, hleaf⟩
  · rw [ha, hs, List.append_assoc]
  · rw [hb, ht, List.append_assoc]
  · rw [List.flatMap_append, List.length_append, Nat.add_assoc]
  · rw [List.flatMap_append, hfront, hnil, List.append_nil]

theorem Counting.interrupted (hc : s.Counting) (hk : k < s.remaining.length) (visit : Visitor σ α)
    (acc : σ) : Interrupted s k (s.drain visit acc).2 :=
  ⟨[], s, [], [], (s.drain visit acc).2, k, hc.parts_eq, (hc.drain visit acc).parts_eq,
    (Nat.zero_add k).symm, hk, rfl, .inl ⟨hc, hc.remaining_drain visit acc⟩⟩

/-- A drain whose visitor accepts the first `k` elements and raises on the next one. -/
theorem drain_interrupted (h : s.WellFormed) (hx : s.remaining[k]? = some x)
    (hok : (s.remaining.take k).foldlM visit acc = .ok acc') (he : visit acc' x = .error e) :
    Interrupted s k (s.drain visit acc).2 := by
  have hk : k < s.remaining.length := (List.getElem?_eq_some_iff.mp hx).1
  induction s generalizing k acc with
  | supplied s =>
    exact ⟨[], supplied s, [], [], _, k, rfl, rfl, (Nat.zero_add k).symm, hk, rfl,
      .inr ⟨s, rfl, Supplied.drainItems_of_error hx hok he⟩⟩
  | both a b o iha ihb =>
    rw [remaining] at hx hok hk
    -- Either the first part is abandoned, or it is drained and the second one is.
    by_cases hlt : k < a.remaining.length
    · rw [List.getElem?_append_left hlt] at hx
      rw [List.take_append_of_le_length (Nat.le_of_lt hlt)] at hok
      have hraise := Visitor.foldlM_of_raise hx hok he
      rw [drain_both_error ((drain_fst h.1 visit acc).trans hraise)]
      exact (iha h.1 hx hok hlt).append_right b.parts rfl rfl
    · have hle : a.remaining.length ≤ k := Nat.le_of_not_lt hlt
      rw [List.getElem?_append_right hle] at hx
      rw [List.take_append, List.take_of_length_le hle] at hok
      obtain ⟨acc₁, ha, hb⟩ := Visitor.foldlM_append_eq_ok.mp hok
      have hlen : k - a.remaining.length < b.remaining.length := by
        rw [List.length_append] at hk
        omega
      have hnil : (a.drain visit acc).2.parts.flatMap remaining = [] := by
        rw [flatMap_parts, remaining_drain h.1 ha]
      have hsum : (a.parts.flatMap remaining).length + (k - a.remaining.length) = k := by
        rw [flatMap_parts]
        omega
      have hh : Interrupted (both a b o)
          ((a.parts.flatMap remaining).length + (k - a.remaining.length))
          (both (a.drain visit acc).2 (b.drain visit acc₁).2 o) :=
        (ihb h.2 hx hb hlen).append_left hnil rfl rfl
      rw [drain_both_ok ((drain_fst h.1 visit acc).trans ha)]
      rw [hsum] at hh
      exact hh
  | firstOnly a ih => exact (ih h hx hok hk).of_parts rfl rfl
  | secondOnly b o ih => exact (ih h hx hok hk).of_parts rfl rfl
  | _ => exact Counting.interrupted (by trivial) hk visit acc

theorem steps_wellFormed {t : Sequence α} (h : s.WellFormed) (hf : s.CountsFit)
    (hst : Relation.ReflTransGen Step s t) : t.WellFormed ∧ t.CountsFit :=
  steps_preserve (P := fun s => s.WellFormed ∧ s.CountsFit)
    (fun _ _ hr hs => ⟨hr.wellFormed hs.1, hr.countsFit hs.2 hs.1⟩) hst ⟨h, hf⟩

/-- Unwinding visitors, in every sequence that can arise. An advance leaves the state that it leaves
when the visitor returns. A drain whose visitor accepts `k` elements and raises on the next one has
handed over exactly the first `k` and leaves what `Interrupted` says; no later run over its pieces
visits any of them again, nor the element that the visitor raised on. A drain whose visitor never raises
is a normal drain. Whatever is done afterwards, to the sequence or to its pieces, the laws of
representation, conservation and exact size hold. -/
theorem unwinding_safe {σ τ : Type u} (h : Reachable Made s) (visit : Visitor σ α) (acc : σ)
    (f : τ → α → τ) (start : τ) :
    ((s.advance visit acc).2 = (s.advance (Visitor.always f) start).2 ∧
      (s.advance visit acc).2.remaining = s.remaining.tail) ∧
    (∀ k x acc' e, s.remaining[k]? = some x → (s.remaining.take k).foldlM visit acc = .ok acc' →
      visit acc' x = .error e →
      (s.drain visit acc).1 = .error e ∧ Interrupted s k (s.drain visit acc).2 ∧
        (s.drain visit acc).2.remaining.Sublist (s.remaining.drop (k + 1)) ∧
        ∀ pieces, Played (s.drain visit acc).2 pieces →
          (pieces.flatMap fun p => p.visited ++ p.owed.remaining).Sublist (s.remaining.drop (k + 1))) ∧
    (∀ k, k < s.remaining.length →
      (s.drain (Visitor.recordFirst k) #[]).1 = .error (s.remaining.take k).toArray ∧
        Interrupted s k (s.drain (Visitor.recordFirst k) #[]).2) ∧
    (∀ acc', s.remaining.foldlM visit acc = .ok acc' →
      s.drain visit acc = (.ok acc', (s.drain (Visitor.always f) start).2)) ∧
    (∀ k, s.remaining.length ≤ k → s.drain (Visitor.recordFirst k) #[] =
      (.ok s.remaining.toArray, (s.drain (Visitor.always f) start).2)) ∧
    (∀ t, Relation.ReflTransGen Step (s.advance visit acc).2 t ∨
        Relation.ReflTransGen Step (s.drain visit acc).2 t →
      t.WellFormed ∧ t.Conserves ∧ (t.EachSupplied Supplied.HonestSize → Flag.sized ∈ t.guarantees →
        t.size = t.remaining.length)) := by
  have hw := h.wellFormed fun _ hm => hm.wellFormed
  have hf := h.countsFit fun _ hm => hm.wellFormed
  have hnormal := Visitor.foldlM_always f start s.remaining
  refine ⟨⟨advance_snd hw _ _ _ _, remaining_advance hw visit acc⟩, fun k x acc' e hx hok he => ?_,
    fun k hk => ?_, fun acc' hok => ?_, fun k hk => ?_, fun t ht => ?_⟩
  · have hi := drain_interrupted hw hx hok he
    refine ⟨(drain_fst hw visit acc).trans (Visitor.foldlM_of_raise hx hok he), hi, hi.sublist,
      fun pieces hp => ?_⟩
    have hrun := (hp.elements (hw.drain visit acc)).1
    exact hrun ▸ hi.sublist
  · have hx : s.remaining[k]? = some s.remaining[k] := List.getElem?_eq_getElem hk
    have hlen : ([] : List α).length + (s.remaining.take k).length ≤ k := by
      rw [List.length_nil, Nat.zero_add]
      exact List.length_take_le k s.remaining
    have hok := Visitor.foldlM_recordFirst k [] (s.remaining.take k) hlen
    have he : Visitor.recordFirst k (s.remaining.take k).toArray s.remaining[k] =
        .error (s.remaining.take k).toArray := by
      simp [Visitor.recordFirst, Nat.min_eq_left (Nat.le_of_lt hk)]
    exact ⟨(drain_fst hw _ _).trans (Visitor.foldlM_of_raise hx hok he), drain_interrupted hw hx hok he⟩
  · exact Prod.ext ((drain_fst hw visit acc).trans hok) (drain_snd_of_ok hw hok hnormal)
  · have hok := Visitor.foldlM_recordFirst k [] s.remaining (by simpa using hk)
    exact Prod.ext ((drain_fst hw _ _).trans hok) (drain_snd_of_ok hw hok hnormal)
  · have hlaws : t.WellFormed ∧ t.CountsFit := by
      obtain ht | ht := ht
      · exact steps_wellFormed (hw.advance visit acc) ((remnant_advance s visit acc).countsFit hf hw) ht
      · exact steps_wellFormed (hw.drain visit acc) ((remnant_drain s visit acc).countsFit hf hw) ht
    exact ⟨hlaws.1, hlaws.1.conserves, size_eq_of_sized hlaws.1 hlaws.2⟩

/-- The visitor raises on the second of three supplied items, with two ranges behind them. -/
theorem unwinding_safe_sample :
    Reachable Made sample ∧
      (sample.drain (Visitor.recordFirst 1) #[]).1 = .error #[5] ∧
      Interrupted sample 1 (sample.drain (Visitor.recordFirst 1) #[]).2 ∧
      (sample.drain (Visitor.recordFirst 1) #[]).2.remaining = [7, 0, 1, 2, 10, 11] := by
  have hr : Reachable Made sample := sample_reachable.mono fun _ hp => hp.1
  have hi := (unwinding_safe hr Visitor.record #[] (fun n _ => n + 1) 0).2.2.1 1 (by decide)
  exact ⟨hr, hi.1, hi.2, by decide⟩

end Sequence

end SplitTraversal
