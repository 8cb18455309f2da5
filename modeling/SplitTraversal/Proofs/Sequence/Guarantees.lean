import SplitTraversal.Proofs.Sequence.ExactSize
import SplitTraversal.Parallel

/-!
Guarantees are never lost. Leaves state the same guarantees for ever and a concatenation states no more
than its parts do, so whatever an operation leaves or hands out states all that was stated before it.
-/

namespace SplitTraversal

namespace Sequence

variable {α : Type u} {s t a b : Sequence α} {o : Bool} {f : Flag}

/-- What is lost by a concatenation does not depend on its parts, and a single part loses nothing. -/
theorem Remnant.guarantees_subset (hr : Remnant s t) : s.guarantees ⊆ t.guarantees := by
  induction hr with
  | same | range | inline | builtInline | buffered | buffer | supplied =>
    intro f hf
    exact hf
  | both _ _ iha ihb =>
    intro f hf
    obtain ⟨ha, hb, hl⟩ := mem_both.mp hf
    exact mem_both.mpr ⟨iha f ha, ihb f hb, hl⟩
  | front =>
    intro f hf
    exact (mem_both.mp hf).1
  | back _ ihb =>
    intro f hf
    exact ihb f (mem_both.mp hf).2.1
  | firstOnly _ ih => exact ih
  | secondOnly _ ih => exact ih

theorem sized_of_subsized
    (hh : s.EachSupplied fun l => Flag.subsized ∈ l.guarantees → Flag.sized ∈ l.guarantees)
    (hs : Flag.subsized ∈ s.guarantees) : Flag.sized ∈ s.guarantees := by
  induction s with
  | supplied s => exact hh hs
  | both a b o iha ihb =>
    obtain ⟨ha, hb, hl⟩ := mem_both.mp hs
    have ho := (not_mem_lostByConcat_iff (.inr rfl)).mp hl
    exact mem_both.mpr ⟨iha hh.1 ha, ihb hh.2 hb, (not_mem_lostByConcat_iff (.inl rfl)).mpr ho⟩
  | firstOnly a ih => exact ih hh hs
  | secondOnly b o ih => exact ih hh hs
  | built b => cases b <;> rfl
  | _ => rfl

variable [Numeral α]

theorem pieces_steps (plan : Schedule) (s : Sequence α) :
    ∀ p ∈ s.pieces plan, Relation.ReflTransGen Step s p := by
  induction plan generalizing s with
  | traverse =>
    intro p hp
    obtain rfl := List.mem_singleton.mp hp
    exact .refl
  | split front rest ihf ihr =>
    intro p hp
    rw [pieces, reduce] at hp
    cases hs : s.split with | mk q t =>
    rw [hs] at hp
    cases q with
    | none =>
      have hrest := Step.rest (s := s)
      rw [hs] at hrest
      obtain rfl := List.mem_singleton.mp hp
      exact .single hrest
    | some q =>
      obtain ⟨hfront, hrest⟩ := Step.of_split hs
      obtain hp | hp := List.mem_append.mp hp
      · exact .head hfront (ihf q p hp)
      · exact .head hrest (ihr t p hp)

/-- Guarantees are kept, in every state of every sequence: by one operation, abandoned or not, on what
it works on and on what it hands out, and so by any run of operations. If the supplied leaves that state
`subsized` state `sized`, then with a sequence that states `subsized` every piece of every schedule
states both, and so does whatever a run makes of it. -/
theorem guarantees_kept (s : Sequence α) :
    (∀ t, Step s t → s.guarantees ⊆ t.guarantees) ∧
    (∀ t, Relation.ReflTransGen Step s t → s.guarantees ⊆ t.guarantees) ∧
    (s.EachSupplied (fun l => Flag.subsized ∈ l.guarantees → Flag.sized ∈ l.guarantees) →
      Flag.subsized ∈ s.guarantees →
      (∀ t, Relation.ReflTransGen Step s t →
        Flag.sized ∈ t.guarantees ∧ Flag.subsized ∈ t.guarantees) ∧
      ∀ plan, ∀ p ∈ s.pieces plan, Flag.sized ∈ p.guarantees ∧ Flag.subsized ∈ p.guarantees) := by
  have hkept : ∀ t, Relation.ReflTransGen Step s t → s.guarantees ⊆ t.guarantees := by
    intro t hst f hf
    exact steps_preserve (fun _ _ hr hg => hr.guarantees_subset f hg) hst hf
  refine ⟨fun t hs => hs.remnant.guarantees_subset, hkept, fun hh hs => ?_⟩
  have hboth : ∀ t, Relation.ReflTransGen Step s t →
      Flag.sized ∈ t.guarantees ∧ Flag.subsized ∈ t.guarantees := by
    intro t hst
    have hsized := sized_of_subsized hh hs
    exact ⟨hkept t hst _ hsized, hkept t hst _ hs⟩
  refine ⟨hboth, fun plan p hp => ?_⟩
  exact hboth p (pieces_steps plan s p hp)

def measured : Sequence Int :=
  (supplied ⟨[5, 6], .ofList [.sized, .subsized], 0, none⟩).concat (range ⟨.word32, 10, 12, true⟩)

/-- A drain that is abandoned at the second item keeps what was stated, and so does the last of the
pieces. -/
theorem guarantees_kept_measured :
    measured.guarantees ⊆ (measured.drain (Visitor.recordFirst 1) #[]).2.guarantees ∧
      Flag.subsized ∈ measured.guarantees ∧
      Flag.subsized ∈ ((measured.pieces (.complete 2)).get ⟨2, by decide⟩).guarantees := by
  have hh := guarantees_kept measured
  have hstep := hh.1 _ (.drain (Visitor.recordFirst 1) #[])
  have hs : Flag.subsized ∈ measured.guarantees := by decide
  have hpieces := (hh.2.2 ⟨fun _ => rfl, trivial⟩ hs).2 (.complete 2) _ (List.get_mem _ ⟨2, by decide⟩)
  exact ⟨hstep, hs, hpieces.2⟩

end Sequence

end SplitTraversal
