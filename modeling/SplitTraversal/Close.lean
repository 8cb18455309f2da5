/-!
Close actions and their failures. Composed actions all run, in order, whatever fails; the first
failure is reported and every later one is recorded with it.
-/

namespace SplitTraversal

/-- A failure to close, with the failures of the actions that still ran after it. -/
structure CloseError (ε : Type u) where
  error : ε
  suppressed : List ε
  deriving DecidableEq, Repr

namespace CloseError

def toList (e : CloseError ε) : List ε := e.error :: e.suppressed

/-- Records `later`, and all that it suppressed itself, as suppressed by this failure. -/
def suppress (e later : CloseError ε) : CloseError ε :=
  { e with suppressed := e.suppressed ++ later.toList }

@[simp] theorem toList_suppress (e later : CloseError ε) :
    (e.suppress later).toList = e.toList ++ later.toList := by simp [suppress, toList]

/-- The first failure, then how many it suppressed, if any. -/
def message (e : CloseError String) : String :=
  if e.suppressed.isEmpty then e.error
  else e.error ++ " (" ++ toString e.suppressed.length ++ " suppressed)"

def history (e : CloseError ε) : List (CloseError ε) → List (CloseError ε)
  | [] => [e]
  | later :: rest => e :: history (e.suppress later) rest

end CloseError

/-- A close action changes the world `σ` and succeeds or fails. -/
abbrev CloseAction (σ : Type u) (ε : Type v) := σ → Except (CloseError ε) Unit × σ

/-- Runs `a` and then `b`, also when `a` failed. -/
def CloseAction.compose (a b : CloseAction σ ε) : CloseAction σ ε := fun w =>
  match a w with
  | (.ok (), w) => b w
  | (.error first, w) =>
      match b w with
      | (.ok (), w) => (.error first, w)
      | (.error second, w) => (.error (first.suppress second), w)

inductive ClosePlan (ε : Type u)
  | run (name : String) (failure : Option (CloseError ε))
  | compose (a b : ClosePlan ε)
  deriving Repr

namespace ClosePlan

/-- The action of a plan; the world is the list of the names run so far. -/
def action : ClosePlan ε → CloseAction (List String) ε
  | run name none => fun log => (.ok (), log ++ [name])
  | run name (some e) => fun log => (.error e, log ++ [name])
  | compose a b => a.action.compose b.action

/-- Builds the action of a plan, part by part, beside the log of what has run. -/
def build : ClosePlan ε → List String → CloseAction (List String) ε × List String
  | run name failure, log => ((run name failure).action, log)
  | compose a b, log =>
      let (first, log) := a.build log
      let (second, log) := b.build log
      (first.compose second, log)

def leaves : ClosePlan ε → List (String × Option (CloseError ε))
  | run name failure => [(name, failure)]
  | compose a b => a.leaves ++ b.leaves

end ClosePlan

/-- What building a plan's action and calling it once does: how many actions have run when the call begins,
the names run by its end, and its result. -/
structure CloseRun (ε : Type u) where
  before : Nat
  log : List String
  result : Except (CloseError ε) Unit

def ClosePlan.execute (p : ClosePlan ε) : CloseRun ε :=
  let (action, built) := p.build []
  let (result, after) := action built
  ⟨built.length, after, result⟩

end SplitTraversal
