import SplitTraversal.Session.Command

/-!
The registers of a session. Registers are numbered in order of creation; one whose sequence or buffer
was never made, or has been moved out, is vacant.
-/

namespace SplitTraversal

structure Session (α : Type) where
  /-- The width of the ranges that the session makes. -/
  width : Width
  sequences : Array (Option (Sequence α))
  builders : Array (Builder α)
  buffers : Array (Option (Store α))

namespace Session

def start (w : Width) : Session α := ⟨w, #[], #[], #[]⟩

def sequence? (s : Session α) (i : Nat) : Option (Sequence α) := s.sequences[i]?.join

def buffer? (s : Session α) (i : Nat) : Option (Store α) := s.buffers[i]?.join

def setSequence (s : Session α) (i : Nat) (q : Option (Sequence α)) : Session α :=
  { s with sequences := s.sequences.setIfInBounds i q }

def setBuilder (s : Session α) (i : Nat) (b : Builder α) : Session α :=
  { s with builders := s.builders.setIfInBounds i b }

def setBuffer (s : Session α) (i : Nat) (b : Option (Store α)) : Session α :=
  { s with buffers := s.buffers.setIfInBounds i b }

def addSequence (s : Session α) (q : Option (Sequence α)) : Session α :=
  { s with sequences := s.sequences.push q }

def addBuilder (s : Session α) (b : Builder α) : Session α :=
  { s with builders := s.builders.push b }

def addBuffer (s : Session α) (b : Option (Store α)) : Session α :=
  { s with buffers := s.buffers.push b }

/-- Puts a new sequence into the next register, which stays vacant when it could not be made. -/
def create (s : Session α) (made : Except Failure (Sequence α)) : Reply α × Session α :=
  match made with
  | .ok q =>
      ({ answer := .sequence (some s.sequences.size), sequence := some q }, s.addSequence (some q))
  | .error f => ({ answer := .failed f }, s.addSequence none)

def vacancy : Reply α := { answer := .vacant }

def onSequence (s : Session α) (i : Nat) (f : Sequence α → Answer α × Sequence α) :
    Reply α × Session α :=
  match s.sequence? i with
  | none => (vacancy, s)
  | some q =>
      let (answer, q) := f q
      ({ answer := answer, sequence := some q }, s.setSequence i (some q))

def takeSequence (s : Session α) (i : Nat) (f : Sequence α → Reply α) : Reply α × Session α :=
  match s.sequence? i with
  | none => (vacancy, s)
  | some q => (f q, s.setSequence i none)

def onBuilder (s : Session α) (i : Nat) (f : Builder α → Answer α × Builder α) :
    Reply α × Session α :=
  match s.builders[i]? with
  | none => (vacancy, s)
  | some b =>
      let (answer, b) := f b
      ({ answer := answer, builder := some b }, s.setBuilder i b)

def onBuffer (s : Session α) (i : Nat) (f : Store α → Answer α × Store α) : Reply α × Session α :=
  match s.buffer? i with
  | none => (vacancy, s)
  | some b =>
      let (answer, b) := f b
      ({ answer := answer, buffer := some b }, s.setBuffer i (some b))

end Session

end SplitTraversal
