import Mathlib.Data.List.Forall2
import SplitTraversal.Proofs.Sequence.Remnant

/-!
Concatenations with one part cannot be told from that part. `bare` takes all of them away, at any depth;
every operation acts on a sequence as it acts on the bare one, so sequences with the same bare form answer
alike for ever, and so do the pieces that are split off them.
-/

namespace SplitTraversal

namespace Sequence

variable {α : Type u} {σ : Type v} {s t : Sequence α}

/-- The sequence without its one-part concatenations. -/
def bare : Sequence α → Sequence α
  | both a b o => both a.bare b.bare o
  | firstOnly a => a.bare
  | secondOnly b _ => b.bare
  | s => s

@[simp] theorem bare_bare (s : Sequence α) : s.bare.bare = s.bare := by
  induction s <;> simp_all [bare]

@[simp] theorem size_bare (s : Sequence α) : s.bare.size = s.size := by
  induction s <;> simp_all [bare, size]

@[simp] theorem guarantees_bare (s : Sequence α) : s.bare.guarantees = s.guarantees := by
  induction s <;> simp_all [bare, guarantees]

@[simp] theorem exactSize_bare (s : Sequence α) : s.bare.exactSize = s.exactSize := by
  simp [exactSize]

@[simp] theorem comparator_bare (s : Sequence α) : s.bare.comparator = s.comparator := by
  induction s <;> simp_all [bare, comparator]

theorem split_bare (s : Sequence α) :
    s.bare.split.map (Option.map bare) bare = s.split.map (Option.map bare) bare := by
  induction s with
  | both a b o => simp [bare, split]
  | firstOnly a ih =>
    rw [bare, ih, split]
    rcases a.split with ⟨_ | p, t⟩ <;> rfl
  | secondOnly b o ih =>
    rw [bare, ih, split]
    rcases b.split with ⟨_ | p, t⟩ <;> rfl
  | _ => rfl

variable [Numeral α]

/-- The bare sequence finds the first part dry when the sequence does, so that both drop it. -/
theorem advance_bare (s : Sequence α) (visit : Visitor σ α) (acc : σ) :
    (s.bare.advance visit acc).map id bare = (s.advance visit acc).map id bare := by
  induction s with
  | both a b o iha ihb =>
    have hfst : (a.bare.advance visit acc).1 = (a.advance visit acc).1 := by
      simpa using congrArg Prod.fst iha
    by_cases h : ∃ acc', (a.advance visit acc).1 = .ok (acc', false)
    · rw [bare, advance_both_dry h.choose_spec, advance_both_dry (hfst.trans h.choose_spec)]
      simpa [Prod.ext_iff, bare] using ihb
    · have hbare : ∀ acc', (a.bare.advance visit acc).1 ≠ .ok (acc', false) := by
        simpa [hfst] using h
      rw [bare, advance_both_found (not_exists.mp h), advance_both_found hbare]
      simp_all [Prod.ext_iff, bare]
  | firstOnly a ih => simpa [Prod.ext_iff, bare, advance] using ih
  | secondOnly b o ih => simpa [Prod.ext_iff, bare, advance] using ih
  | _ => rfl

theorem drain_bare (s : Sequence α) (visit : Visitor σ α) (acc : σ) :
    (s.bare.drain visit acc).map id bare = (s.drain visit acc).map id bare := by
  induction s generalizing acc with
  | both a b o iha ihb =>
    have ha := iha acc
    have hfst : (a.bare.drain visit acc).1 = (a.drain visit acc).1 := by
      simpa using congrArg Prod.fst ha
    cases hr : (a.drain visit acc).1 with
    | error e =>
      rw [bare, drain_both_error hr, drain_both_error (hfst.trans hr)]
      simp_all [Prod.ext_iff, bare]
    | ok acc' =>
      have hb := ihb acc'
      rw [bare, drain_both_ok hr, drain_both_ok (hfst.trans hr)]
      simp_all [Prod.ext_iff, bare]
  | firstOnly a ih => simpa [Prod.ext_iff, bare, drain] using ih acc
  | secondOnly b o ih => simpa [Prod.ext_iff, bare, drain] using ih acc
  | _ => rfl

/-- Related sequences answer alike, whatever the visitor does, and every operation leaves or hands out
related sequences. -/
structure Bisimulation (R : Sequence α → Sequence α → Prop) : Prop where
  size : ∀ s t, R s t → s.size = t.size
  guarantees : ∀ s t, R s t → s.guarantees = t.guarantees
  exactSize : ∀ s t, R s t → s.exactSize = t.exactSize
  comparator : ∀ s t, R s t → s.comparator = t.comparator
  advance : ∀ s t, R s t → ∀ {σ : Type u} (visit : Visitor σ α) (acc : σ),
    (s.advance visit acc).1 = (t.advance visit acc).1 ∧
      R (s.advance visit acc).2 (t.advance visit acc).2
  drain : ∀ s t, R s t → ∀ {σ : Type u} (visit : Visitor σ α) (acc : σ),
    (s.drain visit acc).1 = (t.drain visit acc).1 ∧ R (s.drain visit acc).2 (t.drain visit acc).2
  split : ∀ s t, R s t → Option.Rel R s.split.1 t.split.1 ∧ R s.split.2 t.split.2

/-- The sequences cannot be told apart, now or after any operations on them and on their pieces. -/
def Bisimilar (s t : Sequence α) : Prop :=
  ∃ R : Sequence α → Sequence α → Prop, Bisimulation R ∧ R s t

/-- Sequences with the same bare form are related by one bisimulation. -/
theorem bisimulation_bare : Bisimulation fun s t : Sequence α => s.bare = t.bare where
  size s t h := by rw [← size_bare s, h, size_bare]
  guarantees s t h := by rw [← guarantees_bare s, h, guarantees_bare]
  exactSize s t h := by rw [← exactSize_bare s, h, exactSize_bare]
  comparator s t h := by rw [← comparator_bare s, h, comparator_bare]
  advance s t h _ visit acc := by
    have hs := s.advance_bare visit acc
    rw [h, t.advance_bare] at hs
    simpa [Prod.ext_iff, eq_comm] using hs
  drain s t h _ visit acc := by
    have hs := s.drain_bare visit acc
    rw [h, t.drain_bare] at hs
    simpa [Prod.ext_iff, eq_comm] using hs
  split s t h := by
    have hs := s.split_bare
    rw [h, t.split_bare] at hs
    obtain ⟨hfront, hrest⟩ := Prod.ext_iff.mp hs
    rw [Prod.map_fst, Prod.map_fst] at hfront
    refine ⟨?_, hrest.symm⟩
    cases hp : s.split.1 <;> cases hq : t.split.1 <;> simp_all

theorem bisimilar_of_bare_eq (h : s.bare = t.bare) : Bisimilar s t := ⟨_, bisimulation_bare, h⟩

/-- The pieces have the same visited elements in front of them, and what they owe is related. -/
def Piece.Matches (R : Sequence α → Sequence α → Prop) (p q : Piece α) : Prop :=
  p.visited = q.visited ∧ R p.owed q.owed

section Runs

variable {R : Sequence α → Sequence α → Prop} {ps qs ps' : List (Piece α)}

theorem Bisimulation.next (hR : Bisimulation R) (h : R s t) : s.next.1 = t.next.1 ∧ R s.next.2 t.next.2 := by
  obtain ⟨hfst, hsnd⟩ := hR.advance s t h (Visitor.always fun _ x => some x) none
  refine ⟨?_, hsnd⟩
  rw [Sequence.next, Sequence.next, Prod.map_fst, Prod.map_fst, hfst]

omit [Numeral α] in
theorem answer_related {β : Type v} {x y : β × Sequence α} {answer : β} (h : x.1 = y.1 ∧ R x.2 y.2)
    (hx : x = (answer, s)) : ∃ t, y = (answer, t) ∧ R s t := by
  obtain ⟨hfst, hsnd⟩ := h
  rw [hx] at hfst hsnd
  exact ⟨y.2, Prod.ext hfst.symm rfl, hsnd⟩

/-- One operation on a piece is answered by the same operation on the piece that matches it. -/
theorem Bisimulation.turn (hR : Bisimulation R) {p q : Piece α} (hpq : p.Matches R q) (ht : p.Turn ps) :
    ∃ qs, q.Turn qs ∧ List.Forall₂ (Piece.Matches R) ps qs := by
  obtain ⟨hvisited, howed⟩ := hpq
  cases ht with
  | advance hs =>
    obtain ⟨rest, hq, hrest⟩ := answer_related (hR.advance _ _ howed Visitor.record #[]) hs
    exact ⟨_, .advance hq, .cons ⟨congrArg (· ++ _) hvisited, hrest⟩ .nil⟩
  | next hs =>
    obtain ⟨rest, hq, hrest⟩ := answer_related (hR.next howed) hs
    exact ⟨_, .next hq, .cons ⟨congrArg (· ++ _) hvisited, hrest⟩ .nil⟩
  | drain hs =>
    obtain ⟨rest, hq, hrest⟩ := answer_related (hR.drain _ _ howed Visitor.record #[]) hs
    exact ⟨_, .drain hq, .cons ⟨congrArg (· ++ _) hvisited, hrest⟩ .nil⟩
  | split hs =>
    obtain ⟨hfront, hrest⟩ := hR.split _ _ howed
    cases hq : q.owed.split with | mk front rest =>
    rw [hs, hq] at hfront hrest
    cases hfront with
    | some hf => exact ⟨_, .split hq, .cons ⟨hvisited, hf⟩ (.cons ⟨rfl, hrest⟩ .nil)⟩
  | whole hs =>
    obtain ⟨hfront, hrest⟩ := hR.split _ _ howed
    cases hq : q.owed.split with | mk front rest =>
    rw [hs, hq] at hfront hrest
    cases hfront with
    | none => exact ⟨_, .whole hq, .cons ⟨hvisited, hrest⟩ .nil⟩

theorem Bisimulation.play (hR : Bisimulation R) (hps : List.Forall₂ (Piece.Matches R) ps qs)
    (hp : Play ps ps') : ∃ qs', Play qs qs' ∧ List.Forall₂ (Piece.Matches R) ps' qs' := by
  cases hp with
  | @turn before after p ts ht =>
    -- The matching pieces stand at the same places, so `qs` is cut where the piece stands.
    have hbefore := List.forall₂_take before.length hps
    have hrest := List.forall₂_drop before.length hps
    rw [List.take_left] at hbefore
    rw [List.drop_left] at hrest
    obtain ⟨q, after', hpq, hafter, hq⟩ := List.forall₂_cons_left_iff.mp hrest
    obtain ⟨us, hturn, hus⟩ := hR.turn hpq ht
    have hqs : qs.take before.length ++ q :: after' = qs := by rw [← hq, List.take_append_drop]
    have hplay := Play.turn (qs.take before.length) after' hturn
    rw [hqs] at hplay
    exact ⟨_, hplay, List.rel_append (List.rel_append hbefore hus) hafter⟩

/-- Every run over the pieces of a sequence is a run over the pieces of any that cannot be told from it,
with the same elements visited and with pieces that cannot be told apart. -/
theorem Bisimilar.played (h : Bisimilar s t) (hp : Played s ps) :
    ∃ qs, Played t qs ∧ List.Forall₂ (Piece.Matches Bisimilar) ps qs := by
  obtain ⟨R, hR, hst⟩ := h
  have hrun : ∃ qs, Played t qs ∧ List.Forall₂ (Piece.Matches R) ps qs := by
    induction hp with
    | refl => exact ⟨_, .refl, .cons ⟨rfl, hst⟩ .nil⟩
    | tail _ hplay ih =>
      obtain ⟨qs, hq, hmatch⟩ := ih
      obtain ⟨qs', hplay', hmatch'⟩ := hR.play hmatch hplay
      exact ⟨qs', hq.tail hplay', hmatch'⟩
  obtain ⟨qs, hq, hmatch⟩ := hrun
  exact ⟨qs, hq, hmatch.imp fun p q hpq => ⟨hpq.1, R, hR, hpq.2⟩⟩

end Runs

/-- A concatenation with one part cannot be told from that part, whichever part it is. So a split of a
concatenation hands out what cannot be told from the first part and leaves what cannot be told from the
second, and an advance that finds the first part dry answers for the second part and leaves what it
leaves; the wrappers make no difference at any depth. Every run over the pieces of the one is a run over
the pieces of the other, in both directions. -/
theorem single_part_bisimilar (c : Sequence α) :
    Bisimilar (firstOnly c) c ∧ (∀ o, Bisimilar (secondOnly c o) c) ∧ Bisimilar c c.bare ∧
    (∀ d o, ∃ front rest, (both c d o).split = (some front, rest) ∧ Bisimilar front c ∧
      Bisimilar rest d) ∧
    (∀ d o, ∀ {σ : Type u} (visit : Visitor σ α) (acc acc' : σ),
      (d.advance visit acc).1 = .ok (acc', false) →
      ((both d c o).advance visit acc).1 = (c.advance visit acc).1 ∧
        Bisimilar ((both d c o).advance visit acc).2 (c.advance visit acc).2) ∧
    ∀ w, w = firstOnly c ∨ (∃ o, w = secondOnly c o) →
      (∀ ps, Played w ps → ∃ qs, Played c qs ∧ List.Forall₂ (Piece.Matches Bisimilar) ps qs) ∧
      ∀ ps, Played c ps → ∃ qs, Played w qs ∧ List.Forall₂ (Piece.Matches Bisimilar) ps qs := by
  refine ⟨bisimilar_of_bare_eq rfl, fun o => bisimilar_of_bare_eq rfl,
    bisimilar_of_bare_eq (bare_bare c).symm, fun d o => ?_, fun d o _ visit acc acc' hdry => ?_,
    fun w hw => ?_⟩
  · exact ⟨firstOnly c, secondOnly d o, rfl, bisimilar_of_bare_eq rfl, bisimilar_of_bare_eq rfl⟩
  · rw [advance_both_dry hdry]
    exact ⟨rfl, bisimilar_of_bare_eq rfl⟩
  · have hbare : w.bare = c.bare := by
      obtain rfl | ⟨o, rfl⟩ := hw <;> rfl
    exact ⟨fun ps hp => (bisimilar_of_bare_eq hbare).played hp,
      fun ps hp => (bisimilar_of_bare_eq hbare.symm).played hp⟩

def bereft : Sequence Int :=
  secondOnly ((range ⟨.word32, 0, 3, false⟩).concat (range ⟨.word32, 10, 11, true⟩)) true

theorem bereft_played : ∃ ps, Played (firstOnly bereft) ps ∧ ps.map Piece.visited = [[], [10]] := by
  let front := (firstOnly bereft).split.1.get rfl
  let rest := (firstOnly bereft).split.2
  have hsplit : Play [⟨[], firstOnly bereft⟩] [⟨[], front⟩, ⟨[], rest⟩] := .turn [] [] (.split rfl)
  have hnext : Play [⟨[], front⟩, ⟨[], rest⟩] [⟨[], front⟩, ⟨[10], rest.next.2⟩] :=
    .turn [⟨[], front⟩] [] (.next rfl)
  exact ⟨_, (Relation.ReflTransGen.single hsplit).tail hnext, rfl⟩

/-- The run on the wrapper is matched without it; behind a dry part the sequence answers for itself. -/
theorem single_part_bisimilar_bereft :
    (∃ ps qs, Played (firstOnly bereft) ps ∧ ps.map Piece.visited = [[], [10]] ∧ Played bereft qs ∧
      List.Forall₂ (Piece.Matches Bisimilar) ps qs) ∧
    ((both empty bereft false).advance Visitor.record #[]).1 = .ok (#[0], true) := by
  obtain ⟨ps, hp, hvisited⟩ := bereft_played
  have hh := single_part_bisimilar bereft
  obtain ⟨-, -, -, -, hdry, hruns⟩ := hh
  obtain ⟨qs, hq, hmatch⟩ := (hruns _ (.inl rfl)).1 ps hp
  have hfirst := (hdry empty false Visitor.record #[] #[] rfl).1
  exact ⟨⟨ps, qs, hp, hvisited, hq, hmatch⟩, hfirst.trans rfl⟩

end Sequence

end SplitTraversal
