import SplitTraversal.Builder

/-!
Builders as their callers see them. A draft is the list of accepted elements and whether they have been
built; calls on it say what the same calls on a builder are to do. Requests address one of several
builders side by side, or copy one of them.
-/

namespace SplitTraversal

inductive Builder.Call (α : Type u)
  | accept (x : α)
  /-- Accepts one element after the other, up to the first refusal. -/
  | acceptAll (xs : List α)
  | extend (xs : List α)
  | build

def Builder.perform (b : Builder α) : Call α → Except Failure (Option (Built α)) × Builder α
  | .accept x => (b.accept x).map (fun r => (r.mapError .error).map fun _ => none) id
  | .acceptAll xs => (b.acceptAll xs).map (fun r => (r.mapError .error).map fun _ => none) id
  | .extend xs => (b.extend xs).map (fun r => r.map fun _ => none) id
  | .build => b.build.map (fun r => (r.mapError .error).map some) id

structure Draft (α : Type u) where
  accepted : List α
  built : Bool
  deriving DecidableEq, Repr

namespace Draft

def new : Draft α := ⟨[], false⟩

/-- Appends the elements. A draft that has been built refuses them, if there are any. -/
def append (d : Draft α) (xs : List α) (refusal : Failure) :
    Except Failure (Option (List α)) × Draft α :=
  if d.built && !xs.isEmpty then (.error refusal, d)
  else (.ok none, { d with accepted := d.accepted ++ xs })

def build (d : Draft α) : Except Failure (Option (List α)) × Draft α :=
  if d.built then (.error (.error .alreadyBuilt), d)
  else (.ok (some d.accepted), { d with built := true })

def perform (d : Draft α) : Builder.Call α → Except Failure (Option (List α)) × Draft α
  | .accept x => d.append [x] (.error .alreadyBuilt)
  | .acceptAll xs => d.append xs (.error .alreadyBuilt)
  | .extend xs => d.append xs (.panic Error.alreadyBuilt.message)
  | .build => d.build

end Draft

namespace Builder

/-- A call on the builder with the given number, or a copy of it. -/
inductive Request (α : Type u)
  | call (i : Nat) (c : Call α)
  | copy (i : Nat)

/-- Serves a request on builders, or on drafts, that stand side by side. A copy is put behind them. -/
def serve (perform : σ → Call α → ρ × σ) (bs : List σ) : Request α → Option ρ × List σ
  | .call i c =>
      match bs[i]? with
      | some b => (perform b c).map some (bs.set i ·)
      | none => (none, bs)
  | .copy i => (none, bs ++ bs[i]?.toList)

def serveAll (perform : σ → Call α → ρ × σ) : List σ → List (Request α) → List (Option ρ) × List σ
  | bs, [] => ([], bs)
  | bs, r :: rs =>
      let (outcome, bs) := serve perform bs r
      (serveAll perform bs rs).map (outcome :: ·) id

end Builder

end SplitTraversal
