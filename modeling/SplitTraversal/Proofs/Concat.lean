import SplitTraversal.Concat
import SplitTraversal.Proofs.Sequence.Unwinding

/-!
The history of a concatenation. A record does what the sequence that it shows does, and a call leaves
either both parts or one; so one part is always present, what a split hands out has one part for ever,
and both parts are present exactly until a split, or an advance that finds the first part dry.
-/

namespace SplitTraversal

namespace Concat

variable {α : Type u} {σ : Type v} {c d : Concat α} {s t a b : Sequence α} {o : Bool}

theorem isSome_toSequence (c : Concat α) : c.toSequence.isSome = (c.first.isSome || c.second.isSome) := by
  obtain ⟨_ | a, _ | b, o⟩ := c <;> rfl

@[simp] theorem toSequence_new (a b : Sequence α) : (new a b).toSequence = some (a.concat b) := rfl

theorem size_eq (h : c.toSequence = some s) : c.size = s.size := by
  obtain ⟨_ | a, _ | b, o⟩ := c <;> cases h <;> rfl

theorem guarantees_eq (h : c.toSequence = some s) : c.guarantees = s.guarantees := by
  obtain ⟨_ | a, _ | b, o⟩ := c <;> cases h <;> rfl

theorem comparator_eq (h : c.toSequence = some s) : c.comparator = s.comparator := by
  obtain ⟨_ | a, _ | b, o⟩ := c <;> cases h <;> rfl

theorem split_eq (h : c.toSequence = some s) :
    c.split.map (Option.map toSequence) toSequence = s.split.map (Option.map some) some := by
  obtain ⟨_ | a, _ | b, o⟩ := c <;> cases h
  · rcases hb : b.split with ⟨_ | p, t⟩ <;> simp [split, Sequence.split, toSequence, hb]
  · rcases ha : a.split with ⟨_ | p, t⟩ <;> simp [split, Sequence.split, toSequence, ha]
  · rfl

def Single (c : Concat α) : Prop := c.first.isSome ≠ c.second.isSome

theorem single_front {p : Concat α} (hp : c.split.1 = some p) : p.Single := by
  obtain ⟨_ | a, _ | b, o⟩ := c
  · cases hp
  · obtain ⟨q, -, rfl⟩ := Option.map_eq_some_iff.mp hp
    simp [Single]
  · obtain ⟨q, -, rfl⟩ := Option.map_eq_some_iff.mp hp
    simp [Single]
  · cases hp
    simp [Single]

variable [Numeral α] {visit : Visitor σ α} {acc acc' e : σ}

theorem advance_first (visit : Visitor σ α) (acc : σ) : (⟨some a, none, o⟩ : Concat α).advance visit acc =
    (a.advance visit acc).map id fun a => ⟨some a, none, o⟩ := by
  rcases ha : a.advance visit acc with ⟨_ | ⟨acc', _ | _⟩, t⟩ <;>
    simp [advance, advanceSecond, abandonFirst, ha]

theorem advance_both_dry (ha : a.WellFormed) (hr : a.remaining = []) (visit : Visitor σ α) (acc : σ) :
    (⟨some a, some b, o⟩ : Concat α).advance visit acc =
      (b.advance visit acc).map id fun b => ⟨none, some b, o⟩ := by
  have hdry := Sequence.advance_fst ha visit acc
  rw [hr, Visitor.first_nil] at hdry
  rcases hs : a.advance visit acc with ⟨result, t⟩
  rw [hs] at hdry
  obtain rfl : result = .ok (acc, false) := hdry
  simp [advance, advanceSecond, abandonFirst, hs]

theorem advance_both_found (ha : a.WellFormed) (hr : a.remaining ≠ []) (visit : Visitor σ α) (acc : σ) :
    (⟨some a, some b, o⟩ : Concat α).advance visit acc =
      (a.advance visit acc).map id fun a => ⟨some a, some b, o⟩ := by
  have hfound := Sequence.advance_fst ha visit acc
  obtain ⟨x, xs, hx⟩ := List.exists_cons_of_ne_nil hr
  rw [hx, Visitor.first_cons] at hfound
  rcases hs : a.advance visit acc with ⟨_ | ⟨acc', _ | _⟩, t⟩
  · simp [advance, hs]
  · rw [hs] at hfound
    exact absurd hfound.symm (Visitor.visited_ne visit acc acc' x)
  · simp [advance, hs]

theorem advance_eq (h : c.toSequence = some s) (hw : s.WellFormed) (visit : Visitor σ α) (acc : σ) :
    (c.advance visit acc).map id toSequence = (s.advance visit acc).map id some := by
  obtain ⟨_ | a, _ | b, o⟩ := c <;> cases h
  · rfl
  · rw [advance_first]
    rfl
  · by_cases hr : a.remaining = []
    · rw [advance_both_dry hw.1 hr, Sequence.advance_both_nil hw.1 hr]
      rfl
    · rw [advance_both_found hw.1 hr, Sequence.advance_both_cons hw.1 hr]
      rfl

theorem drain_eq (h : c.toSequence = some s) (visit : Visitor σ α) (acc : σ) :
    (c.drain visit acc).map id toSequence = (s.drain visit acc).map id some := by
  obtain ⟨_ | a, _ | b, o⟩ := c <;> cases h
  · rfl
  · rcases ha : a.drain visit acc with ⟨_ | acc', t⟩ <;>
      simp [drain, drainSecond, Sequence.drain, toSequence, ha]
  · rcases ha : a.drain visit acc with ⟨_ | acc', t⟩
    · simp [drain, Sequence.drain, toSequence, ha]
    · simp only [drain, drainSecond, Sequence.drain, ha]
      rfl

/-- What a step leaves or hands out shows what a step of the sequence leaves or hands out. -/
theorem Step.toSequence (hs : Step c d) (h : c.toSequence = some s) (hw : s.WellFormed) :
    ∃ t, d.toSequence = some t ∧ Relation.ReflTransGen Sequence.Step s t := by
  cases hs with
  | after call =>
    cases call with
    | advance visit acc =>
      have hd := congrArg Prod.snd (advance_eq h hw visit acc)
      exact ⟨_, hd, .single (.advance visit acc)⟩
    | next =>
      have hd := congrArg Prod.snd (advance_eq h hw (Visitor.always fun _ x => some x) none)
      exact ⟨_, hd, .single .next⟩
    | drain visit acc =>
      have hd := congrArg Prod.snd (drain_eq h visit acc)
      exact ⟨_, hd, .single (.drain visit acc)⟩
    | split =>
      have hd := congrArg Prod.snd (split_eq h)
      exact ⟨_, hd, .single .rest⟩
    | query => exact ⟨s, h, .refl⟩
  | front hp =>
    have hd := congrArg Prod.fst (split_eq h)
    rw [Prod.map_fst, hp] at hd
    obtain ⟨t, ht, hdt⟩ := Option.map_eq_some_iff.mp hd.symm
    exact ⟨t, hdt.symm, .single (.front ht)⟩

theorem steps_toSequence (hst : Relation.ReflTransGen Step c d) (h : c.toSequence = some s)
    (hw : s.WellFormed) : ∃ t, d.toSequence = some t ∧ Relation.ReflTransGen Sequence.Step s t := by
  induction hst with
  | refl => exact ⟨s, h, .refl⟩
  | tail _ hs ih =>
    obtain ⟨t, ht, hst⟩ := ih
    obtain ⟨u, hu, htu⟩ := hs.toSequence ht (hw.steps hst)
    exact ⟨u, hu, hst.trans htu⟩

theorem after_first (call : Call α) : ∃ a', (⟨some a, none, o⟩ : Concat α).after call = ⟨some a', none, o⟩ := by
  cases call with
  | advance visit acc => exact ⟨_, congrArg Prod.snd (advance_first visit acc)⟩
  | next => exact ⟨_, congrArg Prod.snd (advance_first _ none)⟩
  | drain visit acc =>
    rcases ha : a.drain visit acc with ⟨_ | acc', t⟩ <;> simp [after, drain, drainSecond, ha]
  | split => exact ⟨_, rfl⟩
  | query => exact ⟨_, rfl⟩

theorem after_second (call : Call α) : ∃ b', (⟨none, some b, o⟩ : Concat α).after call = ⟨none, some b', o⟩ := by
  cases call <;> exact ⟨_, rfl⟩

theorem after_resolved (ha : a.WellFormed) {call : Call α}
    (hr : (⟨some a, some b, o⟩ : Concat α).Resolves call) :
    ∃ b', (⟨some a, some b, o⟩ : Concat α).after call = ⟨none, some b', o⟩ := by
  cases call with
  | advance visit acc => exact ⟨_, congrArg Prod.snd (advance_both_dry ha (hr a rfl) visit acc)⟩
  | next => exact ⟨_, congrArg Prod.snd (advance_both_dry ha (hr a rfl) _ none)⟩
  | split => exact ⟨_, rfl⟩
  | drain | query => cases hr

theorem after_unresolved (ha : a.WellFormed) {call : Call α}
    (hr : ¬(⟨some a, some b, o⟩ : Concat α).Resolves call) :
    ∃ a' b', (⟨some a, some b, o⟩ : Concat α).after call = ⟨some a', some b', o⟩ := by
  have howed (h : ¬∀ a', some a = some a' → a'.remaining = []) : a.remaining ≠ [] := by
    simpa using h
  cases call with
  | advance visit acc => exact ⟨_, _, congrArg Prod.snd (advance_both_found ha (howed hr) visit acc)⟩
  | next => exact ⟨_, _, congrArg Prod.snd (advance_both_found ha (howed hr) _ none)⟩
  | drain visit acc =>
    rcases hd : a.drain visit acc with ⟨_ | acc', t⟩ <;> simp [after, drain, drainSecond, hd]
  | split => exact absurd trivial hr
  | query => exact ⟨_, _, rfl⟩

theorem Step.single (hs : Step c d) (h : c.Single) : d.Single := by
  cases hs with
  | after call =>
    obtain ⟨_ | a, _ | b, o⟩ := c
    · exact absurd rfl h
    · obtain ⟨b', hb⟩ := after_second (b := b) (o := o) call
      rw [hb]
      exact h
    · obtain ⟨a', ha⟩ := after_first (a := a) (o := o) call
      rw [ha]
      exact h
    · exact absurd rfl h
  | front hp => exact single_front hp

theorem steps_single (hst : Relation.ReflTransGen Step c d) (h : c.Single) : d.Single := by
  induction hst with
  | refl => exact h
  | tail _ hs ih => exact hs.single ih

theorem overflowed_after (h : c.toSequence = some s) (hw : s.WellFormed) (call : Call α) :
    (c.after call).overflowed = c.overflowed := by
  obtain ⟨_ | a, _ | b, o⟩ := c <;> cases h
  · obtain ⟨b', hb⟩ := after_second (b := b) (o := o) call
    rw [hb]
  · obtain ⟨a', ha⟩ := after_first (a := a) (o := o) call
    rw [ha]
  · by_cases hr : (⟨some a, some b, o⟩ : Concat α).Resolves call
    · obtain ⟨b', hb⟩ := after_resolved hw.1 hr
      rw [hb]
    · obtain ⟨a', b', hab⟩ := after_unresolved hw.1 hr
      rw [hab]

theorem isBeforeSplit_after (h : c.toSequence = some s) (hw : s.WellFormed) (call : Call α) :
    (c.after call).isBeforeSplit = true ↔ c.isBeforeSplit = true ∧ ¬c.Resolves call := by
  obtain ⟨_ | a, _ | b, o⟩ := c <;> cases h
  · obtain ⟨b', hb⟩ := after_second (b := b) (o := o) call
    simp [hb, isBeforeSplit]
  · obtain ⟨a', ha⟩ := after_first (a := a) (o := o) call
    simp [ha, isBeforeSplit]
  · by_cases hr : (⟨some a, some b, o⟩ : Concat α).Resolves call
    · obtain ⟨b', hb⟩ := after_resolved hw.1 hr
      simp [hb, hr, isBeforeSplit]
    · obtain ⟨a', b', hab⟩ := after_unresolved hw.1 hr
      simp [hab, hr, isBeforeSplit]

theorem run_steps (c : Concat α) (calls : List (Call α)) :
    Relation.ReflTransGen Step c (c.run calls) := by
  induction calls generalizing c with
  | nil => exact .refl
  | cons call calls ih => exact .head (.after call) (ih (c.after call))

theorem overflowed_run (h : c.toSequence = some s) (hw : s.WellFormed) (calls : List (Call α)) :
    (c.run calls).overflowed = c.overflowed := by
  induction calls generalizing c s with
  | nil => rfl
  | cons call calls ih =>
    obtain ⟨t, ht, hst⟩ := (Step.after call).toSequence h hw
    exact (ih ht (hw.steps hst)).trans (overflowed_after h hw call)

/-- Both parts are left by a history in which no call resolved the concatenation. -/
theorem isBeforeSplit_run (h : c.toSequence = some s) (hw : s.WellFormed) (calls : List (Call α)) :
    (c.run calls).isBeforeSplit = true ↔ c.isBeforeSplit = true ∧
      ∀ before call rest, calls = before ++ call :: rest → ¬(c.run before).Resolves call := by
  induction calls generalizing c s with
  | nil => simp [run]
  | cons call calls ih =>
    obtain ⟨t, ht, hst⟩ := (Step.after call).toSequence h hw
    have hlater : (c.run (call :: calls)).isBeforeSplit = true ↔ _ := ih ht (hw.steps hst)
    rw [hlater, isBeforeSplit_after h hw, and_assoc]
    refine and_congr_right fun _ => ?_
    constructor
    · rintro ⟨hcall, hcalls⟩ before later rest hsplit
      cases before with
      | nil =>
        obtain ⟨rfl, rfl⟩ : call = later ∧ calls = rest := by simpa using hsplit
        exact hcall
      | cons first before =>
        obtain ⟨rfl, rfl⟩ : call = first ∧ calls = before ++ later :: rest := by simpa using hsplit
        exact hcalls before later rest rfl
    · intro hall
      refine ⟨hall [] call calls rfl, fun before later rest hsplit => ?_⟩
      exact hall (call :: before) later rest (by rw [hsplit]; rfl)

/-- The record does what the sequence does, and shows what the sequence becomes. -/
structure Imitates (c : Concat α) (s : Sequence α) : Prop where
  shows : c.toSequence = some s
  size : c.size = s.size
  guarantees : c.guarantees = s.guarantees
  comparator : c.comparator = s.comparator
  advance : ∀ {σ : Type u} (visit : Visitor σ α) (acc : σ),
    (c.advance visit acc).map id toSequence = (s.advance visit acc).map id some
  drain : ∀ {σ : Type u} (visit : Visitor σ α) (acc : σ),
    (c.drain visit acc).map id toSequence = (s.drain visit acc).map id some
  split : c.split.map (Option.map toSequence) toSequence = s.split.map (Option.map some) some

theorem imitates (h : c.toSequence = some s) (hw : s.WellFormed) : c.Imitates s where
  shows := h
  size := size_eq h
  guarantees := guarantees_eq h
  comparator := comparator_eq h
  advance := advance_eq h hw
  drain := drain_eq h
  split := split_eq h

/-- The history of a concatenation of any two sequences that can arise. Whatever is done to it and to its
pieces: a part is present, so that each of them is a sequence and does what the sequence does; parts that
are both present, at any depth, have estimates that can be summed unless the mark of an overflow is set;
and what a split hands out has exactly one part for ever. Whatever is done to the concatenation itself:
both parts are present exactly as long as it has not been split, nor advanced when the first part owed
nothing; so drains and queries change nothing about it, and one part never becomes two again; and the
mark says whether the estimates overflowed when the parts were put together. -/
theorem concat_history (ha : Sequence.Reachable Sequence.Made a) (hb : Sequence.Reachable Sequence.Made b) :
    let c := new a b
    (∀ d, Relation.ReflTransGen Step c d →
      (d.first.isSome ∨ d.second.isSome) ∧
      (∃ s, d.Imitates s ∧ s.CountsFit ∧ Relation.ReflTransGen Sequence.Step (a.concat b) s) ∧
      (∀ x y, d.first = some x → d.second = some y → d.overflowed = false →
        x.size + y.size ≤ unknownSize) ∧
      ∀ p, d.split.1 = some p → ∀ e, Relation.ReflTransGen Step p e →
        e.first.isSome ≠ e.second.isSome) ∧
    ∀ calls,
      ((c.run calls).isBeforeSplit = true ↔
        ∀ before call rest, calls = before ++ call :: rest → ¬(c.run before).Resolves call) ∧
      (∀ more, (c.run (calls ++ more)).isBeforeSplit = true → (c.run calls).isBeforeSplit = true) ∧
      (∀ call, ¬(c.run calls).Resolves call →
        ((c.run calls).after call).isBeforeSplit = (c.run calls).isBeforeSplit) ∧
      (c.run calls).overflowed = decide (UInt64.size ≤ a.size + b.size) := by
  intro c
  have hmade (s : Sequence α) (h : Sequence.Reachable Sequence.Made s) : s.WellFormed :=
    h.wellFormed fun _ hm => hm.wellFormed
  have hw : (a.concat b).WellFormed := ⟨hmade a ha, hmade b hb⟩
  have hf : (a.concat b).CountsFit :=
    .concat (ha.countsFit fun _ hm => hm.wellFormed) (hb.countsFit fun _ hm => hm.wellFormed)
  refine ⟨fun d hd => ?_, fun calls => ?_⟩
  · obtain ⟨s, hs, hst⟩ := steps_toSequence hd (toSequence_new a b) hw
    have hlaws := Sequence.steps_wellFormed hw hf hst
    refine ⟨?_, ⟨s, imitates hs hlaws.1, hlaws.2, hst⟩, fun x y hx hy ho => ?_,
      fun p hp e he => steps_single he (single_front hp)⟩
    · have hsome := d.isSome_toSequence
      rw [hs] at hsome
      simpa using hsome.symm
    · obtain ⟨first, second, o⟩ := d
      obtain ⟨rfl, rfl⟩ := And.intro hx hy
      cases hs
      exact hlaws.2.1 ho
  · have hrun (calls : List (Call α)) := isBeforeSplit_run (toSequence_new a b) hw calls
    obtain ⟨s, hs, hst⟩ := steps_toSequence (run_steps c calls) (toSequence_new a b) hw
    refine ⟨(hrun calls).trans (and_iff_right rfl), fun more hmore => ?_, fun call hcall => ?_,
      overflowed_run (toSequence_new a b) hw calls⟩
    · obtain ⟨hnew, hall⟩ := (hrun (calls ++ more)).mp hmore
      refine (hrun calls).mpr ⟨hnew, fun before call rest hsplit => ?_⟩
      exact hall before call (rest ++ more) (by simp [hsplit])
    · have hafter := isBeforeSplit_after hs (hw.steps hst) call
      rw [Bool.eq_iff_iff, hafter, and_iff_left hcall]

def stock : Sequence Int := .supplied ⟨[5, 6], ∅, 0, none⟩

/-- A drain that is abandoned at the second item leaves both parts in place, although the first owes
nothing any more; the advance after it is what takes the first part away. A piece that is split off after
the drain keeps its one part. -/
theorem concat_history_stock :
    let c := new stock (.range ⟨.word32, 0, 3, false⟩)
    let drain : Call Int := .drain (Visitor.recordFirst 1) #[]
    Sequence.Reachable Sequence.Made stock ∧
      (c.run [drain, .query]).isBeforeSplit = true ∧
      (∀ more, (c.run ([drain, .query, .next] ++ more)).isBeforeSplit = false) ∧
      (c.run [drain, .next]).overflowed = false ∧
      ∃ p, (c.run [drain]).split.1 = some p ∧
        (p.run [.next, .split]).first.isSome ≠ (p.run [.next, .split]).second.isSome := by
  intro c drain
  have hstock : Sequence.Reachable Sequence.Made stock :=
    .leaf (s := .supplied _) trivial (.supplied _)
  have hrange := Sequence.Reachable.leaf (s := .range _) trivial Sequence.low_made
  obtain ⟨hsteps, hcalls⟩ := concat_history hstock hrange
  have hdrained := (hcalls []).2.2.1 drain id
  have hqueried := (hcalls [drain]).2.2.1 .query id
  have hresolved : ¬(c.run [drain, .query, .next]).isBeforeSplit = true := by
    intro h
    apply (hcalls _).1.mp h [drain, .query] .next [] rfl
    rintro _ ⟨⟩
    rfl
  refine ⟨hstock, hqueried.trans hdrained, fun more => ?_, (hcalls _).2.2.2.trans (by decide), ?_⟩
  · rw [← Bool.not_eq_true]
    exact fun h => hresolved ((hcalls _).2.1 more h)
  · exact ⟨_, rfl, (hsteps _ (run_steps c [drain])).2.2.2 _ rfl _ (run_steps _ [.next, .split])⟩

end Concat

end SplitTraversal
