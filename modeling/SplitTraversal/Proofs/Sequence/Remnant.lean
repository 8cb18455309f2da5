import SplitTraversal.Proofs.Buffer.Traversal
import SplitTraversal.Proofs.Range.Traversal
import SplitTraversal.Sequence.Reach

/-!
What an operation makes of a sequence. Every operation, abandoned or not, lets the leaves take steps of
their own and may take either part off a concatenation, so a law that is stable under these changes
holds in every state and of every piece.
-/

namespace SplitTraversal

namespace Sequence

variable {α : Type u} {σ : Type v} {s t : Sequence α}

/-- `t` is what one operation can leave of `s` or hand out from it. -/
inductive Remnant : Sequence α → Sequence α → Prop
  | same (s : Sequence α) : Remnant s s
  | range {r t : Range} (h : r.Step t) : Remnant (range r) (range t)
  | inline (s : Inline α) : Remnant (inline s) (inline .empty)
  | builtInline (s : Inline α) : Remnant (built (.inline s)) (built (.inline .empty))
  | buffered {q t : ChunkQueue α} (h : q.Step t) : Remnant (built (.buffered q)) (built (.buffered t))
  | buffer {q t : ChunkQueue α} (h : q.Step t) : Remnant (buffer q) (buffer t)
  | supplied {s : Supplied α} {items : List α} (h : items <:+ s.items) :
      Remnant (supplied s) (supplied { s with items := items })
  | both {a b a' b' : Sequence α} {o : Bool} (ha : Remnant a a') (hb : Remnant b b') :
      Remnant (both a b o) (both a' b' o)
  | front {a b : Sequence α} {o : Bool} : Remnant (both a b o) (firstOnly a)
  | back {a b b' : Sequence α} {o : Bool} (hb : Remnant b b') :
      Remnant (both a b o) (secondOnly b' o)
  | firstOnly {a a' : Sequence α} (ha : Remnant a a') : Remnant (firstOnly a) (firstOnly a')
  | secondOnly {b b' : Sequence α} {o o' : Bool} (hb : Remnant b b') :
      Remnant (secondOnly b o) (secondOnly b' o')

theorem Remnant.wellFormed (hr : Remnant s t) (h : s.WellFormed) : t.WellFormed := by
  induction hr with
  | same s => exact h
  | range hs => exact hs.wellFormed h
  | inline | builtInline | supplied => trivial
  | buffered hs => exact ⟨hs.wellFormed h.1, hs.fits h.2 h.1⟩
  | buffer hs => exact ⟨hs.wellFormed h.1, hs.fits h.2 h.1⟩
  | both _ _ iha ihb => exact ⟨iha h.1, ihb h.2⟩
  | front => exact h.1
  | back _ ihb => exact ihb h.2
  | firstOnly _ ih => exact ih h
  | secondOnly _ ih => exact ih h

theorem Remnant.eachSupplied {P : Supplied α → Prop}
    (hP : ∀ s items, P s → items <:+ s.items → P { s with items := items }) (hr : Remnant s t)
    (h : s.EachSupplied P) : t.EachSupplied P := by
  induction hr with
  | same s => exact h
  | range | inline | builtInline | buffered | buffer => trivial
  | supplied hs => exact hP _ _ h hs
  | both _ _ iha ihb => exact ⟨iha h.1, ihb h.2⟩
  | front => exact h.1
  | back _ ihb => exact ihb h.2
  | firstOnly _ ih => exact ih h
  | secondOnly _ ih => exact ih h

theorem Remnant.sublist [Numeral α] (hr : Remnant s t) (h : s.WellFormed) :
    t.remaining.Sublist s.remaining := by
  induction hr with
  | same s => exact List.Sublist.refl _
  | range hs => exact (hs.sublist h).map _
  | inline | builtInline => exact List.nil_sublist _
  | buffered hs => exact hs.sublist h.1
  | buffer hs => exact hs.sublist h.1
  | supplied hs => exact hs.sublist
  | both _ _ iha ihb => exact (iha h.1).append (ihb h.2)
  | front => exact List.sublist_append_left _ _
  | back _ ihb => exact (ihb h.2).trans (List.sublist_append_right _ _)
  | firstOnly _ ih => exact ih h
  | secondOnly _ ih => exact ih h

theorem remnant_rest (s : Sequence α) : Remnant s s.split.2 := by
  induction s with
  | range r => exact .range .rest
  | built b =>
    cases b with
    | inline s => exact .same _
    | buffered q => exact .buffered .rest
  | buffer q => exact .buffer .rest
  | both a b o => exact .back (.same b)
  | firstOnly a ih => exact .firstOnly ih
  | secondOnly b o ih => exact .secondOnly ih
  | empty | inline | supplied => exact .same _

theorem remnant_front {p : Sequence α} (hp : s.split.1 = some p) : Remnant s p := by
  induction s generalizing p with
  | range r =>
    obtain ⟨t, ht, rfl⟩ := Option.map_eq_some_iff.mp hp
    exact .range (.front ht)
  | built b =>
    cases b with
    | inline s => cases hp
    | buffered q =>
      obtain ⟨c, hc, rfl⟩ := Option.map_eq_some_iff.mp hp
      obtain ⟨t, ht, rfl⟩ := Option.map_eq_some_iff.mp hc
      exact .buffered (.front ht)
  | buffer q =>
    obtain ⟨t, ht, rfl⟩ := Option.map_eq_some_iff.mp hp
    exact .buffer (.front ht)
  | both a b o =>
    cases hp
    exact .front
  | firstOnly a ih =>
    obtain ⟨t, ht, rfl⟩ := Option.map_eq_some_iff.mp hp
    exact .firstOnly (ih ht)
  | secondOnly b o ih =>
    obtain ⟨t, ht, rfl⟩ := Option.map_eq_some_iff.mp hp
    exact .secondOnly (ih ht)
  | empty | inline | supplied => cases hp

variable [Numeral α] {a b : Sequence α} {o : Bool} {visit : Visitor σ α} {acc acc' e : σ}

theorem advance_both_dry (h : (a.advance visit acc).1 = .ok (acc', false)) :
    (both a b o).advance visit acc = (b.advance visit acc).map id (secondOnly · o) := by
  cases ha : a.advance visit acc with | mk result t =>
  rw [ha] at h
  obtain rfl : result = .ok (acc', false) := h
  simp only [advance, ha]

theorem advance_both_found (h : ∀ acc', (a.advance visit acc).1 ≠ .ok (acc', false)) :
    (both a b o).advance visit acc = (a.advance visit acc).map id (both · b o) := by
  cases ha : a.advance visit acc with | mk result t =>
  rw [ha] at h
  simp only [advance, ha]
  rcases result with e | ⟨acc', found⟩
  · rfl
  · cases found with
    | false => exact absurd rfl (h acc')
    | true => rfl

theorem drain_both_ok (h : (a.drain visit acc).1 = .ok acc') :
    (both a b o).drain visit acc =
      (b.drain visit acc').map id (both (a.drain visit acc).2 · o) := by
  cases ha : a.drain visit acc with | mk result t =>
  rw [ha] at h
  obtain rfl : result = .ok acc' := h
  simp only [drain, ha]

theorem drain_both_error (h : (a.drain visit acc).1 = .error e) :
    (both a b o).drain visit acc = (.error e, both (a.drain visit acc).2 b o) := by
  cases ha : a.drain visit acc with | mk result t =>
  rw [ha] at h
  obtain rfl : result = .error e := h
  simp only [drain, ha]

theorem remnant_advance (s : Sequence α) (visit : Visitor σ α) (acc : σ) :
    Remnant s (s.advance visit acc).2 := by
  induction s with
  | range r => exact .range (r.step_advance _ acc)
  | empty => exact .same _
  | inline s =>
    have hs := Remnant.inline s
    rwa [← s.advance_snd visit acc] at hs
  | built b =>
    cases b with
    | inline s =>
      have hs := Remnant.builtInline s
      rwa [← s.advance_snd visit acc] at hs
    | buffered q => exact .buffered (q.step_advance visit acc)
  | buffer q => exact .buffer (q.step_advance visit acc)
  | supplied s =>
    have hs := Remnant.supplied (List.tail_suffix s.items)
    rwa [← s.advance_snd] at hs
  | both a b o iha ihb =>
    by_cases h : ∃ acc', (a.advance visit acc).1 = .ok (acc', false)
    · rw [advance_both_dry h.choose_spec]
      exact .back ihb
    · rw [advance_both_found (not_exists.mp h)]
      exact .both iha (.same b)
  | firstOnly a ih => exact .firstOnly ih
  | secondOnly b o ih => exact .secondOnly ih

theorem remnant_drain (s : Sequence α) (visit : Visitor σ α) (acc : σ) :
    Remnant s (s.drain visit acc).2 := by
  induction s generalizing acc with
  | range r => exact .range (r.step_drain _ acc)
  | empty => exact .same _
  | inline s =>
    have hs := Remnant.inline s
    rwa [← s.drain_snd visit acc] at hs
  | built b =>
    cases b with
    | inline s =>
      have hs := Remnant.builtInline s
      rwa [← s.drain_snd visit acc] at hs
    | buffered q => exact .buffered (q.step_drain visit acc)
  | buffer q => exact .buffer (q.step_drain visit acc)
  | supplied s => exact .supplied Supplied.drainItems_suffix
  | both a b o iha ihb =>
    cases hr : (a.drain visit acc).1 with
    | error e =>
      rw [drain_both_error hr]
      exact .both (iha acc) (.same b)
    | ok acc' =>
      rw [drain_both_ok hr]
      exact .both (iha acc) (ihb acc')
  | firstOnly a ih => exact .firstOnly (ih acc)
  | secondOnly b o ih => exact .secondOnly (ih acc)

theorem Step.remnant (hs : Step s t) : Remnant s t := by
  cases hs with
  | advance visit acc => exact remnant_advance s visit acc
  | next => exact remnant_advance s _ none
  | drain visit acc => exact remnant_drain s visit acc
  | rest => exact remnant_rest s
  | front hp => exact remnant_front hp

/-- What every operation preserves is preserved by a run of operations. -/
theorem steps_preserve {P : Sequence α → Prop} (hP : ∀ s t, Remnant s t → P s → P t)
    (hst : Relation.ReflTransGen Step s t) (h : P s) : P t := by
  induction hst with
  | refl => exact h
  | tail _ hs ih => exact hP _ _ hs.remnant ih

theorem WellFormed.steps (h : s.WellFormed) (hst : Relation.ReflTransGen Step s t) : t.WellFormed :=
  steps_preserve (fun _ _ hr => hr.wellFormed) hst h

/-- What holds of the leaves, passes to concatenations and is preserved by every operation holds of
everything that can arise. -/
theorem Reachable.holds {P Q : Sequence α → Prop} (hleaf : ∀ s, s.IsLeaf → P s → Q s)
    (hconcat : ∀ a b, Q a → Q b → Q (a.concat b)) (hrem : ∀ s t, Remnant s t → Q s → Q t)
    (h : Reachable P s) : Q s := by
  induction h with
  | leaf hl hp => exact hleaf _ hl hp
  | concat _ _ iha ihb => exact hconcat _ _ iha ihb
  | step _ hs ih => exact hrem _ _ hs.remnant ih

theorem Step.of_split {p : Sequence α} (hs : s.split = (some p, t)) : Step s p ∧ Step s t := by
  have hrest := Step.rest (s := s)
  rw [hs] at hrest
  exact ⟨.front (congrArg Prod.fst hs), hrest⟩

end Sequence

end SplitTraversal
