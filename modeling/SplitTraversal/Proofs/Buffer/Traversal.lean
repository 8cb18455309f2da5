import SplitTraversal.Buffer.Reach

/-!
Traversal and splitting of chunk queues in terms of the elements that they owe. A queue that can arise
holds no empty chunk and knows its length, and on such a queue each operation acts on `toList` as on a
list.
-/

namespace SplitTraversal

namespace ChunkQueue

variable {α : Type u} {σ : Type v} {q : ChunkQueue α}

theorem advance_eq {x : α} {chunk : List α} {more : List (List α)} (hq : q.chunks = (x :: chunk) :: more)
    (visit : Visitor σ α) (acc : σ) : q.advance visit acc =
      (visit.visited acc x, ⟨if chunk.isEmpty then more else chunk :: more, q.length - 1⟩) := by
  simp [advance, hq]

theorem WellFormed.chunks_cases (h : q.WellFormed) :
    q.chunks = [] ∨ ∃ x chunk more, q.chunks = (x :: chunk) :: more := by
  cases hq : q.chunks with
  | nil => exact .inl rfl
  | cons chunk more =>
    have hne := h.chunk_ne_nil chunk (by simp [hq])
    obtain ⟨x, rest, rfl⟩ := List.exists_cons_of_ne_nil hne
    exact .inr ⟨x, rest, more, rfl⟩

theorem WellFormed.toList_ne_nil (h : q.WellFormed) (hq : q.chunks ≠ []) : q.toList ≠ [] := by
  obtain hc | ⟨x, chunk, more, hc⟩ := h.chunks_cases
  · exact absurd hc hq
  · simp [toList, hc]

theorem advance_nil (hq : q.chunks = []) (visit : Visitor σ α) (acc : σ) :
    q.advance visit acc = (.ok (acc, false), q) := by
  simp [advance, hq]

theorem advance_snd (q : ChunkQueue α) {τ : Type w} (visit : Visitor σ α) (acc : σ)
    (other : Visitor τ α) (start : τ) : (q.advance visit acc).2 = (q.advance other start).2 := by
  rw [advance, advance]
  split <;> rfl

theorem advance_fst (h : q.WellFormed) (visit : Visitor σ α) (acc : σ) :
    (q.advance visit acc).1 = visit.first acc q.toList := by
  obtain hq | ⟨x, chunk, more, hq⟩ := h.chunks_cases
  · simp [advance_nil hq, toList, hq]
  · simp [advance_eq hq, toList, hq]

theorem toList_advance (h : q.WellFormed) (visit : Visitor σ α) (acc : σ) :
    (q.advance visit acc).2.toList = q.toList.tail := by
  obtain hq | ⟨x, chunk, more, hq⟩ := h.chunks_cases
  · simp [advance_nil hq, toList, hq]
  · rw [advance_eq hq]
    cases chunk <;> simp [toList, hq]

theorem WellFormed.advance (h : q.WellFormed) (visit : Visitor σ α) (acc : σ) :
    (q.advance visit acc).2.WellFormed := by
  have hlist := toList_advance h visit acc
  obtain hq | ⟨x, chunk, more, hq⟩ := h.chunks_cases
  · rw [advance_nil hq]
    exact h
  · have hne := h.chunk_ne_nil
    rw [advance_eq hq] at hlist ⊢
    refine ⟨fun c hc => ?_, ?_⟩
    · cases chunk with
      | nil => exact hne c (by simp_all)
      | cons y chunk =>
        obtain rfl | hm : c = y :: chunk ∨ c ∈ more := by simpa using hc
        · simp
        · exact hne c (by simp [hq, hm])
    · rw [hlist, List.length_tail, ← h.length_eq]

theorem drain_fst (q : ChunkQueue α) (visit : Visitor σ α) (acc : σ) :
    (q.drain visit acc).1 = q.toList.foldlM visit acc := rfl

theorem toList_drain (q : ChunkQueue α) (visit : Visitor σ α) (acc : σ) :
    (q.drain visit acc).2.toList = [] := rfl

theorem wellFormed_drain (q : ChunkQueue α) (visit : Visitor σ α) (acc : σ) :
    (q.drain visit acc).2.WellFormed :=
  ⟨by simp [ChunkQueue.drain], rfl⟩

theorem wellFormed_ofChunks {chunks : List (List α)} (h : ∀ c ∈ chunks, c ≠ []) :
    (ofChunks chunks).WellFormed :=
  ⟨h, length_ofChunks chunks⟩

theorem WellFormed.rest_eq (h : q.WellFormed) {front rest : List (List α)}
    (hl : q.toList = front.flatten ++ rest.flatten) :
    (⟨rest, q.length - front.flatten.length⟩ : ChunkQueue α) = ofChunks rest := by
  have hlen := h.length_eq
  rw [hl, List.length_append] at hlen
  rw [ofChunks, total_eq, hlen, Nat.add_sub_cancel_left]

theorem WellFormed.split_of_concat (h : q.WellFormed) {front : List (List α)} {last : List α}
    (hf : front ≠ []) (hq : q.chunks = front ++ [last]) (hn : 1 < q.length) :
    q.split = (some (ofChunks front), ofChunks [last]) := by
  have hl : q.toList = front.flatten ++ [last].flatten := by simp [toList, hq]
  obtain ⟨first, more, rfl⟩ := List.exists_cons_of_ne_nil hf
  rw [← h.rest_eq hl, split, if_neg (Nat.not_le_of_lt hn)]
  cases more with
  | nil => simp [hq]
  | cons second more =>
    have hlast : (second :: (more ++ [last])).getLast (List.cons_ne_nil _ _) = last :=
      List.getLast_concat (l := second :: more)
    simp only [hq, List.cons_append]
    simp [List.dropLast_cons_of_ne_nil, hlast]

theorem WellFormed.length_singleton (h : q.WellFormed) {chunk : List α} (hq : q.chunks = [chunk]) :
    q.length = chunk.length := by simp [h.length_eq, toList, hq]

theorem WellFormed.split_of_singleton (h : q.WellFormed) {chunk : List α} (hq : q.chunks = [chunk])
    (hn : 1 < q.length) :
    q.split = (some (ofChunks [chunk.take (q.length / 2)]), ofChunks [chunk.drop (q.length / 2)]) := by
  have hlen := h.length_singleton hq
  have hl : q.toList = [chunk.take (q.length / 2)].flatten ++ [chunk.drop (q.length / 2)].flatten := by
    simp [toList, hq]
  rw [← h.rest_eq hl, split, if_neg (Nat.not_le_of_lt hn)]
  simp [hq, hlen]

/-- `q` is cut in two: before the last of several chunks, or behind the first half of its only chunk. -/
inductive Cut (q : ChunkQueue α) : ChunkQueue α → ChunkQueue α → Prop
  | between {front : List (List α)} {last : List α} (hf : front ≠ []) (hq : q.chunks = front ++ [last]) :
      Cut q (ofChunks front) (ofChunks [last])
  | within {chunk : List α} (hq : q.chunks = [chunk]) :
      Cut q (ofChunks [chunk.take (q.length / 2)]) (ofChunks [chunk.drop (q.length / 2)])

section Cut

variable {front rest : ChunkQueue α}

theorem WellFormed.cut (h : q.WellFormed) (hn : 1 < q.length) :
    ∃ front rest, q.split = (some front, rest) ∧ Cut q front rest := by
  obtain hq | ⟨chunks, last, hq⟩ := List.eq_nil_or_concat q.chunks
  · have hlen := h.length_eq
    simp [toList, hq] at hlen
    omega
  · rw [List.concat_eq_append] at hq
    by_cases hf : chunks = []
    · have hq : q.chunks = [last] := by simp [hq, hf]
      exact ⟨_, _, h.split_of_singleton hq hn, .within hq⟩
    · exact ⟨_, _, h.split_of_concat hf hq hn, .between hf hq⟩

/-- A queue of at most one element stays whole, and any other is cut. -/
theorem WellFormed.split_cases (h : q.WellFormed) : (q.length ≤ 1 ∧ q.split = (none, q)) ∨
    (1 < q.length ∧ ∃ front rest, q.split = (some front, rest) ∧ Cut q front rest) := by
  by_cases hn : q.length ≤ 1
  · exact .inl ⟨hn, if_pos hn⟩
  · exact .inr ⟨by omega, h.cut (by omega)⟩

theorem Cut.append_eq (hc : Cut q front rest) : front.toList ++ rest.toList = q.toList := by
  cases hc with
  | between hf hq => simp [toList, hq]
  | within hq => simp [toList, hq]

theorem Cut.wellFormed (hc : Cut q front rest) (h : q.WellFormed) (hn : 1 < q.length) :
    front.WellFormed ∧ rest.WellFormed := by
  have hne := h.chunk_ne_nil
  cases hc with
  | between hf hq =>
    rw [hq] at hne
    exact ⟨wellFormed_ofChunks fun c hm => hne c (List.mem_append_left _ hm),
      wellFormed_ofChunks fun c hm => hne c (List.mem_append_right _ hm)⟩
  | @within chunk hq =>
    have hlen := h.length_singleton hq
    have hfront : chunk.take (q.length / 2) ≠ [] :=
      List.ne_nil_of_length_pos (by rw [List.length_take]; omega)
    have hrest : chunk.drop (q.length / 2) ≠ [] :=
      List.ne_nil_of_length_pos (by rw [List.length_drop]; omega)
    exact ⟨wellFormed_ofChunks (by simpa using hfront), wellFormed_ofChunks (by simpa using hrest)⟩

theorem Cut.toList_ne_nil (hc : Cut q front rest) (h : q.WellFormed) (hn : 1 < q.length) :
    front.toList ≠ [] ∧ rest.toList ≠ [] := by
  obtain ⟨hfront, hrest⟩ := hc.wellFormed h hn
  cases hc with
  | between hf hq => exact ⟨hfront.toList_ne_nil hf, hrest.toList_ne_nil (by simp)⟩
  | within hq => exact ⟨hfront.toList_ne_nil (by simp), hrest.toList_ne_nil (by simp)⟩

end Cut

theorem WellFormed.cut_of_split (h : q.WellFormed) {p : ChunkQueue α} (hp : q.split.1 = some p) :
    1 < q.length ∧ Cut q p q.split.2 := by
  obtain ⟨-, hs⟩ | ⟨hn, front, rest, hs, hc⟩ := h.split_cases
  · rw [hs] at hp
    cases hp
  · rw [hs] at hp ⊢
    obtain rfl := Option.some.inj hp
    exact ⟨hn, hc⟩

theorem WellFormed.split_eq_none_iff (h : q.WellFormed) : q.split.1 = none ↔ q.toList.length ≤ 1 := by
  rw [← h.length_eq]
  obtain ⟨hn, hs⟩ | ⟨hn, front, rest, hs, -⟩ := h.split_cases
  · simp [hs, hn]
  · simp [hs, hn]

theorem split_none (h : q.WellFormed) (hn : q.split.1 = none) : q.split.2 = q := by
  obtain ⟨-, hs⟩ | ⟨-, front, rest, hs, -⟩ := h.split_cases
  · rw [hs]
  · rw [hs] at hn
    cases hn

theorem toList_split (h : q.WellFormed) {p : ChunkQueue α} (hp : q.split.1 = some p) :
    p.toList ++ q.split.2.toList = q.toList :=
  (h.cut_of_split hp).2.append_eq

theorem split_ne_nil (h : q.WellFormed) {p : ChunkQueue α} (hp : q.split.1 = some p) :
    p.toList ≠ [] ∧ q.split.2.toList ≠ [] := by
  obtain ⟨hn, hc⟩ := h.cut_of_split hp
  exact hc.toList_ne_nil h hn

theorem WellFormed.rest (h : q.WellFormed) : q.split.2.WellFormed := by
  obtain ⟨-, hs⟩ | ⟨hn, front, rest, hs, hc⟩ := h.split_cases
  · rw [hs]
    exact h
  · rw [hs]
    exact (hc.wellFormed h hn).2

theorem WellFormed.front (h : q.WellFormed) {p : ChunkQueue α} (hp : q.split.1 = some p) :
    p.WellFormed := by
  obtain ⟨hn, hc⟩ := h.cut_of_split hp
  exact (hc.wellFormed h hn).1

end ChunkQueue

namespace Store

variable {α : Type u}

/-- No full chunk is empty, and the length is that of the elements. -/
structure Counted (s : Store α) : Prop where
  filled_ne_nil : ∀ c ∈ s.filled.toList, c.toList ≠ []
  length_eq : s.length = s.toList.length

theorem Counted.push {s : Store α} (h : s.Counted) (x : α) : (s.push x).Counted := by
  refine ⟨?_, ?_⟩
  · rw [Store.push]
    split
    · exact h.filled_ne_nil
    · rename_i hfull
      have hc := capacity_pos s.filled.size
      have hl : s.last.toList ≠ [] := List.ne_nil_of_length_pos (by rw [Array.length_toList]; omega)
      intro c hm
      obtain hm | rfl : c ∈ s.filled.toList ∨ c = s.last := by simpa using hm
      · exact h.filled_ne_nil c hm
      · exact hl
  · rw [toList_push, List.length_append, List.length_singleton, ← h.length_eq]
    rw [Store.push]
    split <;> rfl

theorem Counted.append {s : Store α} (h : s.Counted) (xs : List α) : (s.append xs).Counted := by
  induction xs generalizing s with
  | nil => exact h
  | cons x xs ih => exact ih (h.push x)

theorem counted_ofList (xs : List α) : (ofList xs).Counted :=
  Counted.append ⟨by simp [empty], by simp [empty, toList, chunks]⟩ xs

theorem Counted.toQueue {s : Store α} (h : s.Counted) : s.toQueue.WellFormed := by
  refine ⟨fun c hc => ?_, h.length_eq.trans (by rw [toList_toQueue])⟩
  obtain ⟨a, ha, rfl⟩ := List.mem_map.mp hc
  rw [chunks, List.mem_append] at ha
  obtain ha | ha := ha
  · exact h.filled_ne_nil a ha
  · split at ha
    · cases ha
    · rename_i hl
      obtain rfl := List.mem_singleton.mp ha
      simpa using hl

end Store

namespace ChunkQueue

variable {α : Type u} {σ : Type v} {q t : ChunkQueue α}

theorem Step.wellFormed (hs : Step q t) (h : q.WellFormed) : t.WellFormed := by
  cases hs with
  | advance visit acc => exact h.advance visit acc
  | drain visit acc => exact q.wellFormed_drain visit acc
  | rest => exact h.rest
  | front hp => exact h.front hp

theorem Step.sublist (hs : Step q t) (h : q.WellFormed) : t.toList.Sublist q.toList := by
  cases hs with
  | advance visit acc =>
    rw [toList_advance h]
    exact List.tail_sublist q.toList
  | drain visit acc =>
    rw [toList_drain]
    exact List.nil_sublist q.toList
  | rest =>
    cases hp : q.split.1 with
    | none => exact (split_none h hp).symm ▸ List.Sublist.refl _
    | some p =>
      rw [← toList_split h hp]
      exact List.sublist_append_right p.toList _
  | front hp =>
    rw [← toList_split h hp]
    exact List.sublist_append_left _ _

theorem Step.length_le (hs : Step q t) (h : q.WellFormed) : t.length ≤ q.length := by
  rw [h.length_eq, (hs.wellFormed h).length_eq]
  exact (hs.sublist h).length_le

theorem Step.fits (hs : Step q t) (hq : q.Fits) (h : q.WellFormed) : t.Fits :=
  Nat.le_trans (hs.length_le h) hq

theorem step_advance (q : ChunkQueue α) (visit : Visitor σ α) (acc : σ) :
    Step q (q.advance visit acc).2 := by
  have hs := Step.advance (q := q) (Visitor.always fun n _ => n) 0
  rwa [q.advance_snd _ _ visit acc] at hs

theorem step_drain (q : ChunkQueue α) (visit : Visitor σ α) (acc : σ) :
    Step q (q.drain visit acc).2 :=
  .drain (Visitor.always fun n _ => n) 0

theorem Reachable.wellFormed (h : Reachable q) : q.WellFormed := by
  induction h with
  | ofStore xs => exact (Store.counted_ofList xs).toQueue
  | step _ hs ih => exact hs.wellFormed ih

end ChunkQueue

end SplitTraversal
