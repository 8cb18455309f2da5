import SplitTraversal.Buffer.Queue

/-!
An append-only store of chunks. The first chunk holds sixteen elements and every later one twice as
many, up to a limit, so that growing never moves a stored element.
-/

namespace SplitTraversal

/-- The chunks that are full, the one that is being filled, and the number of elements. -/
structure Store (α : Type u) where
  filled : Array (Array α)
  last : Array α
  length : Nat
  deriving DecidableEq, Repr

namespace Store

def firstPower : Nat := 4

/-- Chunks stop doubling at this power of two. -/
def maxPower : Nat := 30

def capacity (i : Nat) : Nat := 1 <<< (firstPower + min i (maxPower - firstPower))

theorem capacity_pos (i : Nat) : 0 < capacity i := by
  rw [capacity, Nat.one_shiftLeft]
  exact Nat.two_pow_pos _

def empty : Store α := ⟨#[], #[], 0⟩

instance : Inhabited (Store α) := ⟨empty⟩

def push (s : Store α) (x : α) : Store α :=
  if s.last.size < capacity s.filled.size then
    { s with last := s.last.push x, length := s.length + 1 }
  else ⟨s.filled.push s.last, #[x], s.length + 1⟩

def append (s : Store α) (xs : List α) : Store α := xs.foldl push s

def ofList (xs : List α) : Store α := empty.append xs

def chunks (s : Store α) : List (Array α) :=
  s.filled.toList ++ if s.last.isEmpty then [] else [s.last]

def chunkCount (s : Store α) : Nat := s.filled.size + if s.last.isEmpty then 0 else 1

@[simp] theorem length_chunks (s : Store α) : s.chunks.length = s.chunkCount := by
  rw [chunks, chunkCount]
  split <;> simp

def toList (s : Store α) : List α := s.chunks.flatMap Array.toList

@[simp] theorem toList_empty : (empty : Store α).toList = [] := rfl

@[simp] theorem toList_push (s : Store α) (x : α) : (s.push x).toList = s.toList ++ [x] := by
  rw [push]
  split
  · by_cases h : s.last.isEmpty <;> simp_all [toList, chunks]
  · have hl : s.last.isEmpty = false := by
      have hc := capacity_pos s.filled.size
      cases h : s.last.isEmpty with
      | false => rfl
      | true => simp_all
    simp [toList, chunks, hl]

@[simp] theorem toList_append (s : Store α) (xs : List α) :
    (s.append xs).toList = s.toList ++ xs := by
  induction xs generalizing s with
  | nil => simp [append]
  | cons x xs ih =>
    have h := ih (s.push x)
    simp only [append, List.foldl_cons] at h ⊢
    simp [h]

@[simp] theorem toList_ofList (xs : List α) : (ofList xs).toList = xs := by simp [ofList]

def isEmpty (s : Store α) : Bool := s.length == 0

/-- The element at position `k` of the chunks, passing over whole chunks. -/
def locate : List (Array α) → Nat → Option α
  | [], _ => none
  | chunk :: more, k => if k < chunk.size then chunk[k]? else locate more (k - chunk.size)

def get? (s : Store α) (k : Nat) : Option α := locate s.chunks k

def toQueue (s : Store α) : ChunkQueue α := ⟨s.chunks.map Array.toList, s.length⟩

@[simp] theorem toList_toQueue (s : Store α) : s.toQueue.toList = s.toList := by
  simp [toQueue, ChunkQueue.toList, toList, List.flatMap]

def describe (text : α → String) (s : Store α) : String :=
  Text.record "SpinedBuffer"
    [("chunks", Text.list (s.chunks.map fun c => Text.list (c.toList.map text))),
      ("len", toString s.length)]

end Store

end SplitTraversal
