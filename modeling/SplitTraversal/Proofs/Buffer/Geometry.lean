import Mathlib.Algebra.BigOperators.Intervals
import Mathlib.Algebra.Order.BigOperators.Group.Finset
import Mathlib.Algebra.Order.Group.Nat
import Mathlib.Order.Bounds.Basic
import SplitTraversal.Buffer.Growth
import SplitTraversal.Proofs.Builder

/-!
The geometry of stores. All chunks of a store but the last are full, so the place of every element follows
from its number alone. The invariant is `Shaped`, which each push keeps, also where it opens a chunk; the
number of chunks, access by position and the first split of the queue are read off it.
-/

namespace SplitTraversal

namespace Store

variable {α : Type u} {s : Store α} {xs : List α}

def room (c : Nat) : Nat := ∑ i ∈ Finset.range c, capacity i

@[simp] theorem room_zero : room 0 = 0 := rfl

theorem room_succ (c : Nat) : room (c + 1) = room c + capacity c := Finset.sum_range_succ capacity c

theorem room_mono {c d : Nat} (h : c ≤ d) : room c ≤ room d :=
  Finset.sum_le_sum_of_subset (Finset.range_mono h)

theorem capacity_eq (i : Nat) : capacity i = 2 ^ (4 + min i 26) := Nat.one_shiftLeft _

theorem length_flatMap_full {chunks : List (Array α)}
    (h : ∀ i (hi : i < chunks.length), chunks[i].size = capacity i) :
    (chunks.flatMap Array.toList).length = room chunks.length := by
  induction chunks using List.reverseRecOn with
  | nil => rfl
  | append_singleton chunks chunk ih =>
    have hlast := h chunks.length (by simp)
    rw [List.getElem_concat_length rfl] at hlast
    have hh := ih fun i hi => by
      have hchunk := h i (by simp; omega)
      rwa [List.getElem_append_left hi] at hchunk
    simp [hh, hlast, room_succ]

/-- The chunks in front are full, the last one is not more than full, and it is empty only in a store with
nothing in front of it. -/
structure Shaped (s : Store α) : Prop where
  filled : ∀ i (hi : i < s.filled.toList.length), s.filled.toList[i].size = capacity i
  last_le : s.last.size ≤ capacity s.filled.size
  last_pos : 0 < s.filled.size → 0 < s.last.size

theorem shaped_empty : (empty : Store α).Shaped := ⟨by simp [empty], by simp [empty], by simp [empty]⟩

theorem Shaped.push (h : s.Shaped) (x : α) : (s.push x).Shaped := by
  rw [Store.push]
  split
  · rename_i hroom
    refine ⟨h.filled, ?_, fun _ => ?_⟩ <;> simp
    exact hroom
  · rename_i hfull
    have hlast : s.last.size = capacity s.filled.size := Nat.le_antisymm h.last_le (Nat.not_lt.mp hfull)
    refine ⟨fun i hi => ?_, ?_, fun _ => by simp⟩
    · simp only [Array.toList_push, List.getElem_append]
      split
      · exact h.filled i ‹_›
      · obtain rfl : i = s.filled.size := by simp at *; omega
        simpa using hlast
    · exact capacity_pos _

theorem Shaped.append (h : s.Shaped) (xs : List α) : (s.append xs).Shaped := by
  induction xs generalizing s with
  | nil => exact h
  | cons x xs ih => exact ih (h.push x)

theorem shaped_ofList (xs : List α) : (ofList xs).Shaped := shaped_empty.append xs

theorem Shaped.cases (h : s.Shaped) : (s.chunks = [] ∧ s.toList = []) ∨
    (0 < s.last.size ∧ s.chunks = s.filled.toList ++ [s.last] ∧
      s.toList = s.filled.toList.flatMap Array.toList ++ s.last.toList) := by
  obtain hz | hpos := Nat.eq_zero_or_pos s.last.size
  · have hfilled : s.filled = #[] := by
      have hp := h.last_pos
      exact Array.eq_empty_of_size_eq_zero (by omega)
    have hlast : s.last = #[] := Array.eq_empty_of_size_eq_zero hz
    exact .inl (by simp [toList, chunks, hfilled, hlast])
  · have hne : s.last.isEmpty = false := by simpa [Array.isEmpty] using Nat.ne_of_gt hpos
    exact .inr (by simp [toList, chunks, hne, hpos])

theorem Shaped.length_filled (h : s.Shaped) :
    (s.filled.toList.flatMap Array.toList).length = room s.filled.size := by
  rw [length_flatMap_full h.filled, Array.length_toList]

theorem locate_eq (chunks : List (Array α)) (k : Nat) :
    locate chunks k = (chunks.flatMap Array.toList)[k]? := by
  induction chunks generalizing k with
  | nil => rfl
  | cons chunk chunks ih =>
    rw [locate, List.flatMap_cons]
    split
    · rename_i hk
      rw [List.getElem?_append_left (by simpa using hk), Array.getElem?_toList]
    · rename_i hk
      rw [List.getElem?_append_right (by simpa using hk), ih, Array.length_toList]

theorem locateChecked_eq (chunks : List (Array α)) (k : Nat) :
    locateChecked chunks k = some (locate chunks k) := by
  induction chunks generalizing k with
  | nil => rfl
  | cons chunk chunks ih =>
    rw [locateChecked, locate]
    split
    · rfl
    · rename_i hk
      rw [if_pos (Nat.not_lt.mp hk), ih]

/-- The store keeps the list `xs`: it hands out these elements, by position and in order; its chunks have the
sizes that their numbers tell, and are as few as possible; and the queue that it is made into owes the list
and splits before the last chunk. -/
structure Keeps (s : Store α) (xs : List α) : Prop where
  toList_eq : s.toList = xs
  length_eq : s.length = xs.length
  size_full : ∀ i (hi : i < s.chunks.length), i + 1 < s.chunks.length → s.chunks[i].size = capacity i
  size_last : ∀ i (hi : i < s.chunks.length), i + 1 = s.chunks.length →
    1 ≤ s.chunks[i].size ∧ s.chunks[i].size ≤ capacity i
  isLeast_chunkCount : IsLeast {c | xs.length ≤ ∑ i ∈ Finset.range c, capacity i} s.chunkCount
  get?_eq : ∀ k, s.get? k = xs[k]?
  get?_checked : ∀ k, locateChecked s.chunks k = some (s.get? k)
  drain : ∀ {σ : Type v} (visit : Visitor σ α) (acc : σ), (s.toQueue.drain visit acc).1 = xs.foldlM visit acc
  yields : ∀ [Numeral α], Sequence.Yields (.buffer s.toQueue) xs
  split : 1 < s.chunkCount → ∃ front rest, s.toQueue.split = (some front, rest) ∧
    front.toList = xs.take (∑ i ∈ Finset.range (s.chunkCount - 1), capacity i) ∧
    front.length = ∑ i ∈ Finset.range (s.chunkCount - 1), capacity i ∧
    rest.toList = xs.drop (∑ i ∈ Finset.range (s.chunkCount - 1), capacity i)

theorem Shaped.size_full (h : s.Shaped) (i : Nat) (hi : i < s.chunks.length) (hlt : i + 1 < s.chunks.length) :
    s.chunks[i].size = capacity i := by
  obtain ⟨hc, -⟩ | ⟨-, hc, -⟩ := h.cases
  · simp [hc] at hi
  · simp only [hc, List.length_append, List.length_singleton] at hlt ⊢
    rw [List.getElem_append_left (by omega)]
    exact h.filled i _

theorem Shaped.size_last (h : s.Shaped) (i : Nat) (hi : i < s.chunks.length) (hlast : i + 1 = s.chunks.length) :
    1 ≤ s.chunks[i].size ∧ s.chunks[i].size ≤ capacity i := by
  obtain ⟨hc, -⟩ | ⟨hpos, hc, -⟩ := h.cases
  · simp [hc] at hi
  · obtain rfl : i = s.filled.size := by simpa [hc] using hlast
    simp only [hc, List.getElem_concat_length, Array.length_toList]
    exact ⟨hpos, h.last_le⟩

theorem Shaped.isLeast_chunkCount (h : s.Shaped) : IsLeast {c | s.toList.length ≤ room c} s.chunkCount := by
  rw [← length_chunks]
  obtain ⟨hc, hl⟩ | ⟨hpos, hc, hl⟩ := h.cases
  · simp [hc, hl, IsLeast, lowerBounds]
  · have hn : s.toList.length = room s.filled.size + s.last.size := by
      rw [hl, List.length_append, h.length_filled, Array.length_toList]
    have hlast := h.last_le
    rw [hc, hn, List.length_append, Array.length_toList, List.length_singleton]
    refine ⟨?_, fun c hfits => ?_⟩
    · show _ ≤ room (s.filled.size + 1)
      rw [room_succ]
      omega
    · -- Fewer chunks than there are would leave the last element without a place.
      refine Nat.lt_of_not_le fun hle => ?_
      have hroom : room s.filled.size + s.last.size ≤ room c := hfits
      have hmono := room_mono hle
      omega

theorem Shaped.split (h : s.Shaped) (hs : s.Counted) (hmany : 1 < s.chunkCount) :
    ∃ front rest, s.toQueue.split = (some front, rest) ∧
      front.toList = s.toList.take (room (s.chunkCount - 1)) ∧ front.length = room (s.chunkCount - 1) ∧
      rest.toList = s.toList.drop (room (s.chunkCount - 1)) := by
  rw [← length_chunks] at hmany ⊢
  obtain ⟨hc, -⟩ | ⟨hpos, hc, hl⟩ := h.cases
  · simp [hc] at hmany
  · have hcount : s.chunks.length - 1 = s.filled.size := by simp [hc]
    have hfilled := h.length_filled
    have hlen := hs.length_eq
    rw [hl, List.length_append, hfilled, Array.length_toList] at hlen
    have hfirst : room 1 ≤ room s.filled.size := room_mono (by omega)
    rw [room_succ, room_zero, Nat.zero_add] at hfirst
    have hcap := capacity_pos 0
    have hfront : s.filled.toList.map Array.toList ≠ [] :=
      List.ne_nil_of_length_pos (by rw [List.length_map, Array.length_toList]; omega)
    have hchunks : s.toQueue.chunks = s.filled.toList.map Array.toList ++ [s.last.toList] := by
      simp [toQueue, hc]
    have hsplit := hs.toQueue.split_of_concat hfront hchunks (by show 1 < s.length; omega)
    rw [hcount, hl, ← hfilled, List.take_left, List.drop_left, List.flatMap_def]
    exact ⟨_, _, hsplit, rfl, ChunkQueue.length_ofChunks _, List.append_nil _⟩

theorem keeps_ofList (xs : List α) : Keeps.{u, v} (ofList xs) xs := by
  have h := shaped_ofList xs
  have hs := counted_ofList xs
  have hlist := toList_ofList xs
  have hqueue : (ofList xs).toQueue.toList = xs := by rw [toList_toQueue, hlist]
  refine ⟨hlist, ?_, h.size_full, h.size_last, ?_, fun k => ?_, fun k => locateChecked_eq _ k, ?_, ?_, fun hmany => ?_⟩
  · rw [hs.length_eq, hlist]
  · have hleast := h.isLeast_chunkCount
    rwa [hlist] at hleast
  · rw [get?, locate_eq, ← toList, hlist]
  · intro σ visit acc
    rw [ChunkQueue.drain_fst, hqueue]
  · intro _
    have hy := hs.toQueue.yields .buffer fun _ => rfl
    rwa [hqueue] at hy
  · have hsplit := h.split hs hmany
    rwa [hlist] at hsplit

theorem ofList_append (xs ys : List α) : ofList (xs ++ ys) = (ofList xs).append ys := List.foldl_append

theorem modify_ofList (added : List (List α)) (i : Nat) {f : Store α → Store α} {g : List α → List α}
    (h : ∀ xs, f (ofList xs) = ofList (g xs)) :
    (added.map ofList).modify i f = (added.modify i g).map ofList := by
  refine List.ext_getElem? fun k => ?_
  simp only [List.getElem?_modify, List.getElem?_map]
  cases added[k]? with
  | none => rfl
  | some xs => by_cases hk : i = k <;> simp [hk, h]

/-- The stores are those of the lists that have been added. -/
theorem serve_ofList (added : List (List α)) (request : Request α) :
    serve (added.map ofList) request = (record added request).map ofList := by
  cases request with
  | new => simp [serve, record, ofList, Store.append]
  | gather xs => simp [serve, record]
  | push i x => exact modify_ofList added i fun xs => (ofList_concat xs x).symm
  | append i xs => exact modify_ofList added i fun ys => (ofList_append ys xs).symm
  | copy i =>
    simp only [serve, record, List.map_append, List.getElem?_map]
    cases added[i]? <;> rfl

theorem foldl_serve (added : List (List α)) (requests : List (Request α)) :
    requests.foldl serve (added.map ofList) = (requests.foldl record added).map ofList := by
  induction requests generalizing added with
  | nil => rfl
  | cons request requests ih => rw [List.foldl_cons, serve_ofList, ih, List.foldl_cons]

/-- After every run of requests each store keeps all that has been added to it, in chunks whose capacities
double up to `2 ^ 30`. -/
theorem layout_exact (requests : List (Request α)) : (∀ i, capacity i = 2 ^ (4 + min i 26)) ∧
    List.Forall₂ (Keeps.{u, v}) (requests.foldl serve []) (requests.foldl record []) := by
  refine ⟨capacity_eq, ?_⟩
  have hh := foldl_serve ([] : List (List α)) requests
  rw [List.map_nil] at hh
  rw [hh, List.forall₂_map_left_iff, List.forall₂_same]
  exact fun xs _ => keeps_ofList xs

example : (ofList (List.range 100)).chunks.map Array.size = [16, 32, 52] := by decide +kernel

end Store

end SplitTraversal
