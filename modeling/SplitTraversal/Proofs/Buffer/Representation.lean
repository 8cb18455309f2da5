import SplitTraversal.Buffer.Checked
import SplitTraversal.Built.Reach
import SplitTraversal.Proofs.Buffer.Geometry

/-!
How queues of chunks keep account of themselves. The length is stored apart from the chunks and updated on
four paths, and the front chunk is removed as it becomes empty. On every queue in use the two agree, so
nothing is ever taken off a length that is too small for it, no split misses a chunk, and a queue is cut
whenever there are two elements to share out.
-/

namespace SplitTraversal

variable {α : Type u} {σ : Type v}

theorem Built.Step.of_buffered {q : ChunkQueue α} {b : Built α} (hs : Built.Step (.buffered q) b) :
    ∃ t, b = .buffered t ∧ ChunkQueue.Step q t := by
  cases hs with
  | advance visit acc => exact ⟨_, rfl, .advance visit acc⟩
  | drain visit acc => exact ⟨_, rfl, .drain visit acc⟩
  | rest => exact ⟨_, rfl, .rest⟩
  | front hp =>
    obtain ⟨t, ht, rfl⟩ := Option.map_eq_some_iff.mp hp
    exact ⟨t, rfl, .front ht⟩

namespace ChunkQueue

variable {q front rest : ChunkQueue α}

/-- Wherever a queue comes from, it could have come from a store that was filled once. -/
theorem InUse.reachable (h : InUse q) : Reachable q := by
  induction h with
  | ofStore requests hs =>
    have hh := Store.foldl_serve [] requests
    rw [List.map_nil] at hh
    rw [hh] at hs
    obtain ⟨xs, -, rfl⟩ := List.mem_map.mp hs
    exact .ofStore xs
  | ofBuilder requests hq =>
    obtain ⟨d, c, hd⟩ := Builder.exists_perform_of_mem_serveAll [Draft.new] requests hq
    obtain ⟨xs, rfl⟩ := Builder.exists_toQueue_of_build (Builder.build_of_perform hd.symm)
    exact .ofStore xs
  | step _ hs ih => exact .step ih hs
  | builtStep _ hs ih =>
    obtain ⟨t, ht, hs⟩ := hs.of_buffered
    cases ht
    exact .step ih hs

theorem WellFormed.checked_advance (h : q.WellFormed) (visit : Visitor σ α) (acc : σ) :
    Checked.advance visit acc q = some (q.advance visit acc) := by
  obtain hq | ⟨x, chunk, more, hq⟩ := h.chunks_cases
  · simp [Checked.advance, advance_nil hq, hq]
  · have hpos : 1 ≤ q.length := by simp [h.length_eq, toList, hq]
    rw [Checked.advance, advance_eq hq]
    simp only [hq, Nat.psub_eq_sub hpos, Option.map_some]

theorem Cut.length_add (hc : Cut q front rest) (h : q.WellFormed) (hn : 1 < q.length) :
    rest.length + front.length = q.length := by
  obtain ⟨hfront, hrest⟩ := hc.wellFormed h hn
  rw [h.length_eq, hfront.length_eq, hrest.length_eq, ← hc.append_eq, List.length_append, Nat.add_comm]

theorem WellFormed.checked_split (h : q.WellFormed) : Checked.split q = some q.split := by
  obtain ⟨hn, hs⟩ | ⟨hn, front, rest, hs, hc⟩ := h.split_cases
  · rw [hs, Checked.split, if_pos hn]
  · have hsub : q.length.psub front.length = some rest.length :=
      Nat.psub_eq_some.mpr (hc.length_add h hn)
    rw [hs, Checked.split, if_neg (Nat.not_le_of_lt hn)]
    cases hc with
    | @between chunks last hf hq =>
      have hpos := List.length_pos_iff.mpr hf
      have hmany : 1 < q.chunks.length := by simp [hq, hpos]
      have hlast : q.chunks.getLast? = some last := by simp [hq]
      have hfront : q.chunks.dropLast = chunks := by simp [hq]
      simp only [if_pos hmany, hlast, hfront, Option.bind_eq_bind, Option.bind_some]
      exact congrArg (Option.map _) hsub
    | @within chunk hq =>
      have hone : ¬1 < q.chunks.length := by simp [hq]
      have hhead : q.chunks.head? = some chunk := by simp [hq]
      simp only [if_neg hone, hhead, Option.bind_eq_bind, Option.bind_some, List.splitAt_eq,
        ← h.length_singleton hq]
      exact congrArg (Option.map _) hsub

/-- Queues keep account of themselves, wherever they come from and whatever has been done to them. No chunk is
empty, and the length is the sum of the lengths of the chunks. Advances and splits have the results that they
have with checked arithmetic, so no length ever falls below zero and no chunk is ever missed. A queue of at
most one element stays whole; any other is cut in two pieces that both owe something. -/
theorem representation_kept (h : InUse q) :
    ((∀ c ∈ q.chunks, c ≠ []) ∧ q.length = (q.chunks.map List.length).sum) ∧
    (∀ {σ : Type v} (visit : Visitor σ α) (acc : σ),
      Checked.advance visit acc q = some (q.advance visit acc)) ∧
    Checked.split q = some q.split ∧
    (q.split = (none, q) ↔ q.toList.length ≤ 1) ∧ (q.split.1 = none ↔ q.toList.length ≤ 1) ∧
    (1 < q.toList.length → ∃ front rest, q.split = (some front, rest) ∧ Cut q front rest ∧
      front.toList ≠ [] ∧ rest.toList ≠ []) := by
  have hw := h.reachable.wellFormed
  have hnone := hw.split_eq_none_iff
  refine ⟨⟨hw.chunk_ne_nil, ?_⟩, fun visit acc => hw.checked_advance visit acc, hw.checked_split,
    ⟨fun hs => ?_, fun hn => ?_⟩, hnone, fun hn => ?_⟩
  · rw [hw.length_eq, toList, List.length_flatten]
  · exact hnone.mp (congrArg Prod.fst hs)
  · have hs := hnone.mpr hn
    exact Prod.ext hs (split_none hw hs)
  · rw [← hw.length_eq] at hn
    obtain ⟨front, rest, hs, hc⟩ := hw.cut hn
    exact ⟨front, rest, hs, hc, hc.toList_ne_nil hw hn⟩

/-- Eighteen elements from a builder, after a visitor has raised on the first of them. The split is between
the chunks; the rest is split within its chunk; and what that hands out stays whole. -/
theorem representation_kept_raised :
    let q : ChunkQueue Nat := ⟨[(List.range 16).tail, [16, 17]], 17⟩
    let rest : ChunkQueue Nat := ⟨[[16, 17]], 2⟩
    let one : ChunkQueue Nat := ⟨[[16]], 1⟩
    InUse q ∧ Checked.split q = some (some ⟨[(List.range 16).tail], 15⟩, rest) ∧
      InUse rest ∧ rest.split = (some one, ⟨[[17]], 1⟩) ∧ Cut rest one ⟨[[17]], 1⟩ ∧
      InUse one ∧ one.split = (none, one) := by
  have hbuilt : InUse (⟨[List.range 16, [16, 17]], 18⟩ : ChunkQueue Nat) :=
    .ofBuilder [.call 0 (.extend (List.range 18)), .call 0 .build] (.tail _ (.head _))
  have hq : InUse (⟨[(List.range 16).tail, [16, 17]], 17⟩ : ChunkQueue Nat) :=
    .builtStep hbuilt (.advance Visitor.refuse ())
  have hrest : InUse (⟨[[16, 17]], 2⟩ : ChunkQueue Nat) := .step hq .rest
  have hone : InUse (⟨[[16]], 1⟩ : ChunkQueue Nat) := .step hrest (.front rfl)
  obtain ⟨-, -, hsplit, -⟩ := representation_kept.{0, 0} hq
  obtain ⟨-, -, -, -, -, hcut⟩ := representation_kept.{0, 0} hrest
  obtain ⟨-, -, -, hwhole, -⟩ := representation_kept.{0, 0} hone
  obtain ⟨front, last, hs, hc, -⟩ := hcut (by decide)
  obtain ⟨hf, hl⟩ := Prod.mk.inj hs
  obtain rfl := Option.some.inj hf
  obtain rfl := hl
  exact ⟨hq, hsplit, hrest, rfl, hc, hone, hwhole.mpr (by decide)⟩

end ChunkQueue

end SplitTraversal
