import SplitTraversal.Parallel
import SplitTraversal.Sequence.Leaves
import SplitTraversal.Sequence.Text
import SplitTraversal.Session.State

/-!
Running the commands of a session, one after the other.
-/

namespace SplitTraversal

namespace Sequence

/-- Two ranges, two sequences held in place or two empty sequences that are equal. -/
def same [BEq α] : Sequence α → Sequence α → Bool
  | range r, range t => r == t
  | inline s, inline t => s.element == t.element
  | empty, empty => true
  | _, _ => false

def encode? : Sequence α → Option Json
  | range r => some r.encode
  | _ => none

def compare? (s : Sequence α) (x y : α) : Answer α :=
  match s.comparator with
  | .ok .natural => .natural
  | .ok (.custom cmp) => .ordering (cmp x y)
  | .error e => .failed (.error e)

def lesser [Ord α] : Option α → Option α → Option α
  | none, y => y
  | x, none => x
  | some x, some y => if compare x y = .gt then some y else some x

def gather [Numeral α] (s : Sequence α) : Answer α :=
  match s.foldSlot Visitor.record #[] with
  | .value items => .items items.toList
  | .abandoned | .vacant =>
      .failed (.panic
        "internal error: entered unreachable code: accumulator is restored after every element")

def perform [Element α] (plan : Schedule) (s : Sequence α) : Purpose α → Reply α
  | .collect => { answer := .items (s.collect plan).toList }
  | .digest => { answer := .digest (Digest.ofArray (s.collect plan)) }
  | .count => { answer := .number (s.combine (fun _ => 1) (· + ·) (0 : Int) plan) }
  | .sum => { answer := .number (s.combine Element.digestKey (· + ·) 0 plan) }
  | .min => { answer := .element (s.combine some lesser none plan) }
  | .find x => { answer := .element (s.find (· == x) plan) }
  | .inner => { answer := .done, sequence := some s }

end Sequence

namespace Session

variable {α : Type}

def plan : Schedule := .complete 4

def leaf [Numeral α] (listed : Bool) (s : Sequence α) : Leaf α :=
  ⟨s.size, s.guarantees, if listed then some s.toArray.toList else none⟩

def splitRegister (s : Session α) (i : Nat) : Reply α × Session α :=
  match s.sequence? i with
  | none => (vacancy, s.addSequence none)
  | some q =>
      let (front, rest) := q.split
      ({ answer := .sequence (front.map fun _ => s.sequences.size), sequence := front, rest := some rest },
        (s.setSequence i (some rest)).addSequence front)

def step [Element α] (s : Session α) : Command α → Reply α × Session α
  | .makeRange form lower upper => s.create ((form.make s.width lower upper).map .range)
  | .restoreRange checkpoint =>
      s.create (((Range.decode s.width checkpoint).mapError .unreadable).map .range)
  | .makeEmpty => s.create (.ok .empty)
  | .makeInline x => s.create (.ok (.inline ⟨x⟩))
  | .makeBuilt x => s.create (.ok (.built (.of x)))
  | .supply items guarantees surplus order =>
      s.create (.ok (.supplied ⟨items.toList, guarantees, surplus, order.comparator⟩))
  | .concat a b =>
      match s.sequence? a, s.sequence? b with
      | some p, some q => ((s.setSequence a none).setSequence b none).create (.ok (p.concat q))
      | _, _ => (vacancy, s.addSequence none)
  | .copy i =>
      match s.sequence? i with
      | some q => s.create (.ok q)
      | none => (vacancy, s.addSequence none)
  | .split i => s.splitRegister i
  | .newBuilder =>
      ({ answer := .builder s.builders.size, builder := some .empty }, s.addBuilder .empty)
  | .accept i x =>
      s.onBuilder i fun b =>
        match b.accept x with
        | (.ok (), b) => (.accepted, b)
        | (.error e, b) => (.failed (.error e), b)
  | .acceptAll i xs =>
      s.onBuilder i fun b =>
        match b.acceptAll xs.toList with
        | (.ok (), b) => (.acceptedAll b.count, b)
        | (.error e, b) => (.failed (.error e), b)
  | .extend i xs =>
      s.onBuilder i fun b =>
        match b.extend xs.toList with
        | (.ok (), b) => (.accepted, b)
        | (.error f, b) => (.failed f, b)
  | .build i =>
      match s.builders[i]? with
      | none => (vacancy, s.addSequence none)
      | some b =>
          let (made, b) := b.build
          let (reply, s) := (s.setBuilder i b).create ((made.mapError .error).map .built)
          ({ reply with builder := some b }, s)
  | .copyBuilder i =>
      match s.builders[i]? with
      | none => (vacancy, s)
      | some b => ({ answer := .builder s.builders.size, builder := some b }, s.addBuilder b)
  | .describeBuilder i => s.onBuilder i fun b => (.text (b.describe Element.text), b)
  | .newBuffer xs =>
      let b := Store.ofList xs.toList
      ({ answer := .buffer s.buffers.size, buffer := some b }, s.addBuffer (some b))
  | .push i x => s.onBuffer i fun b => (.done, b.push x)
  | .append i xs => s.onBuffer i fun b => (.done, b.append xs.toList)
  | .get i positions => s.onBuffer i fun b => (.elements (positions.map b.get?), b)
  | .listBuffer i => s.onBuffer i fun b => (.items b.toList, b)
  | .describeBuffer i => s.onBuffer i fun b => (.text (b.describe Element.text), b)
  | .copyBuffer i =>
      match s.buffer? i with
      | some b => ({ answer := .done, buffer := some b }, s.addBuffer (some b))
      | none => (vacancy, s.addBuffer none)
  | .traverseBuffer i =>
      match s.buffer? i with
      | some b => (s.setBuffer i none).create (.ok (.buffer b.toQueue))
      | none => (vacancy, s.addSequence none)
  | .query i => s.onSequence i fun q => (.done, q)
  | .has i g => s.onSequence i fun q => (.truth (q.guarantees.contains g), q)
  | .describe i => s.onSequence i fun q => (.text (q.describe Element.text), q)
  | .encode i =>
      s.onSequence i fun q =>
        match q.encode? with
        | some v => (.text v.render, q)
        | none => (.done, q)
  | .advance i n =>
      s.onSequence i fun q =>
        let ((found, seen), q) := q.advanceTimes n #[]
        (.advanced found seen.toList, q)
  | .drain i =>
      s.onSequence i fun q =>
        let (seen, q) := q.drain Visitor.record #[]
        (.items (Visitor.state seen).toList, q)
  | .drainDigest i =>
      s.onSequence i fun q =>
        let (digest, q) := q.drain (Visitor.always Digest.add) Digest.empty
        (.digest (Visitor.state digest), q)
  | .drainRaising i k =>
      s.onSequence i fun q =>
        let (seen, q) := q.drain (Visitor.recordFirst k) #[]
        (.drained (Visitor.state seen).toList (Visitor.raised seen), q)
  | .advanceRaising i =>
      s.onSequence i fun q =>
        let (result, q) := q.advance Visitor.refuse ()
        (.aborted (Visitor.raised result), q)
  | .compare i x y => s.onSequence i fun q => (q.compare? x y, q)
  | .iterate i n =>
      s.onSequence i fun q =>
        let (items, rest) := q.nextTimes n
        (.iterated items (q.hints n), rest)
  | .same a b =>
      match s.sequence? a, s.sequence? b with
      | some p, some q => ({ answer := .truth (p.same q) }, s)
      | _, _ => (vacancy, s)
  | .fold i => s.takeSequence i fun q => { answer := q.gather }
  | .leaves i bound listed =>
      s.takeSequence i fun q =>
        { answer := .leaves ((q.leaves bound).map (leaf listed)) }
  | .parallel i purpose => s.takeSequence i fun q => q.perform plan purpose

def run [Element α] : Session α → List (Command α) → List (Reply α)
  | _, [] => []
  | s, c :: cs =>
      let (reply, s) := s.step c
      reply :: run s cs

end Session

end SplitTraversal
