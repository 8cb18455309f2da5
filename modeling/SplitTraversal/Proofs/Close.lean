import SplitTraversal.Close

/-!
Compositions of close actions. One call runs every action of a composition once, from left to right,
whatever fails, and reports the first failure with all the others behind it. So a composition does what
the list of its actions does, and nesting makes no difference.
-/

namespace SplitTraversal

variable {σ : Type u} {ε : Type v}

namespace CloseError

/-- Failures in the order in which they happened, as one result: the first of them suppresses all that
the others report. -/
def report : List (CloseError ε) → Except (CloseError ε) Unit
  | [] => .ok ()
  | e :: later => .error { e with suppressed := e.suppressed ++ later.flatMap toList }

@[simp] theorem report_nil : report ([] : List (CloseError ε)) = .ok () := rfl

@[simp] theorem report_singleton (e : CloseError ε) : report [e] = .error e := by simp [report]

/-- The result tells of every failure. It is a success exactly when there is none; otherwise it has the
error of the first failure, and its errors are those of all failures in order, each followed by those
that it suppressed itself. -/
structure Reports (result : Except (CloseError ε) Unit) (es : List (CloseError ε)) : Prop where
  ok_iff : result = .ok () ↔ es = []
  error_iff : ∀ e, result = .error e ↔ es.head?.map error = some e.error ∧
    e.error :: e.suppressed = es.flatMap fun f => f.error :: f.suppressed

theorem report_eq_ok_iff {es : List (CloseError ε)} : report es = .ok () ↔ es = [] := by
  cases es <;> simp [report]

theorem report_eq_error_iff {es : List (CloseError ε)} {e : CloseError ε} : report es = .error e ↔
    es.head?.map error = some e.error ∧ e.toList = es.flatMap toList := by
  cases es with
  | nil => simp [report]
  | cons first later =>
    obtain ⟨x, xs⟩ := e
    simp [report, toList, eq_comm]

theorem reports_report (es : List (CloseError ε)) : Reports (report es) es :=
  ⟨report_eq_ok_iff, fun _ => report_eq_error_iff⟩

/-- A later failure is suppressed together with all that comes with it. -/
theorem report_append_of_errors {es later : List (CloseError ε)} {e f : CloseError ε}
    (he : report es = .error e) (hf : report later = .error f) :
    report (es ++ later) = .error (e.suppress f) := by
  rw [report_eq_error_iff] at he hf ⊢
  obtain ⟨hfirst, hall⟩ := he
  cases es with
  | nil => simp at hfirst
  | cons first rest => exact ⟨hfirst, by rw [toList_suppress, hall, hf.2, List.flatMap_append]⟩

end CloseError

open CloseError (report)

namespace CloseAction

/-- How the actions end when they are called one after the other, each once, whatever fails. -/
def runAll : List (CloseAction σ ε) → σ → List (Except (CloseError ε) Unit) × σ
  | [], w => ([], w)
  | a :: rest, w => (runAll rest (a w).2).map ((a w).1 :: ·) id

theorem runAll_append (as bs : List (CloseAction σ ε)) (w : σ) : runAll (as ++ bs) w =
    (runAll bs (runAll as w).2).map ((runAll as w).1 ++ ·) id := by
  induction as generalizing w with
  | nil => rfl
  | cons a as ih =>
    rw [List.cons_append, runAll, ih]
    rfl

def failures : List (Except (CloseError ε) Unit) → List (CloseError ε) :=
  List.filterMap fun
    | .ok () => none
    | .error e => some e

theorem failures_append (rs ts : List (Except (CloseError ε) Unit)) :
    failures (rs ++ ts) = failures rs ++ failures ts :=
  List.filterMap_append

theorem failures_eq_nil_iff {rs : List (Except (CloseError ε) Unit)} :
    failures rs = [] ↔ ∀ r ∈ rs, r = .ok () := by
  rw [failures, List.filterMap_eq_nil_iff]
  refine forall₂_congr fun r _ => ?_
  cases r <;> simp

@[simp] theorem report_failures_singleton (r : Except (CloseError ε) Unit) : report (failures [r]) = r := by
  cases r <;> simp [failures]

/-- A composition of two actions that report lists of failures reports both lists. -/
theorem compose_eq {a b : CloseAction σ ε} {es fs : List (CloseError ε)} {w w₁ w₂ : σ}
    (ha : a w = (report es, w₁)) (hb : b w₁ = (report fs, w₂)) :
    a.compose b w = (report (es ++ fs), w₂) := by
  cases he : report es with
  | ok =>
    obtain rfl := CloseError.report_eq_ok_iff.mp he
    simp [compose, ha, hb]
  | error e =>
    cases hf : report fs with
    | ok =>
      obtain rfl := CloseError.report_eq_ok_iff.mp hf
      simp [compose, ha, hb, he]
    | error f =>
      rw [CloseError.report_append_of_errors he hf]
      simp [compose, ha, hb, he, hf]

end CloseAction

/-- A tree of compositions over any actions in any world. Whether an action fails may depend on what has
run before it. -/
inductive CloseTree (σ : Type u) (ε : Type v)
  | run (a : CloseAction σ ε)
  | compose (a b : CloseTree σ ε)

namespace CloseTree

def action : CloseTree σ ε → CloseAction σ ε
  | run a => a
  | compose a b => a.action.compose b.action

def leaves : CloseTree σ ε → List (CloseAction σ ε)
  | run a => [a]
  | compose a b => a.leaves ++ b.leaves

theorem action_eq (t : CloseTree σ ε) (w : σ) : t.action w =
    (report (CloseAction.failures (CloseAction.runAll t.leaves w).1), (CloseAction.runAll t.leaves w).2) := by
  induction t generalizing w with
  | run a => simp [action, leaves, CloseAction.runAll]
  | compose a b iha ihb =>
    rw [leaves, CloseAction.runAll_append, Prod.map_fst, Prod.map_snd, CloseAction.failures_append]
    exact CloseAction.compose_eq (iha w) (ihb _)

end CloseTree

namespace ClosePlan

def leafAction (l : String × Option (CloseError ε)) : CloseAction (List String) ε :=
  (run l.1 l.2).action

def tree : ClosePlan ε → CloseTree (List String) ε
  | run name failure => .run (leafAction (name, failure))
  | compose a b => .compose a.tree b.tree

theorem action_tree (p : ClosePlan ε) : p.tree.action = p.action := by
  induction p with
  | run name failure => rfl
  | compose a b iha ihb => rw [tree, CloseTree.action, action, iha, ihb]

theorem leaves_tree (p : ClosePlan ε) : p.tree.leaves = p.leaves.map leafAction := by
  induction p with
  | run name failure => rfl
  | compose a b iha ihb => rw [tree, CloseTree.leaves, leaves, iha, ihb, List.map_append]

theorem runAll_leafAction (ls : List (String × Option (CloseError ε))) (log : List String) :
    CloseAction.failures (CloseAction.runAll (ls.map leafAction) log).1 = ls.filterMap Prod.snd ∧
      (CloseAction.runAll (ls.map leafAction) log).2 = log ++ ls.map Prod.fst := by
  induction ls generalizing log with
  | nil => exact ⟨rfl, (List.append_nil log).symm⟩
  | cons l ls ih =>
    obtain ⟨name, failure⟩ := l
    have hh := ih (log ++ [name])
    cases failure <;> simpa [CloseAction.runAll, CloseAction.failures, leafAction, action] using hh

/-- Building runs nothing. -/
theorem build_eq (p : ClosePlan ε) (log : List String) : p.build log = (p.action, log) := by
  induction p generalizing log with
  | run name failure => rfl
  | compose a b iha ihb =>
    simp only [build, iha, ihb]
    rfl

theorem action_eq (p : ClosePlan ε) (log : List String) :
    p.action log = (report (p.leaves.filterMap Prod.snd), log ++ p.leaves.map Prod.fst) := by
  obtain ⟨hf, hlog⟩ := runAll_leafAction p.leaves log
  rw [← action_tree, CloseTree.action_eq, leaves_tree, hf, hlog]

end ClosePlan

/-- Composed close actions all run and no error is lost. With named actions: building a plan runs nothing
and gives its action; the call runs every leaf once, from left to right, whatever has run before; the
result tells of every leaf that fails; and plans with the same leaves are the same action. It is the same
with any actions in any world: a tree leaves the world as its leaves leave it when they are called one
after the other, and tells of every failure among their results, so that only its leaves matter. -/
theorem ClosePlan.runs_everything (p : ClosePlan ε) (t : CloseTree σ ε) (w : σ) :
    (∀ log, p.build log = (p.action, log)) ∧ p.execute.before = 0 ∧
    p.execute.log = p.leaves.map Prod.fst ∧
    (p.execute.result = .ok () ↔ ∀ leaf ∈ p.leaves, leaf.2 = none) ∧
    CloseError.Reports p.execute.result (p.leaves.filterMap Prod.snd) ∧
    (∀ log, p.action log = (p.execute.result, log ++ p.leaves.map Prod.fst)) ∧
    (∀ q : ClosePlan ε, q.leaves = p.leaves → q.action = p.action) ∧
    (t.action w).2 = (CloseAction.runAll t.leaves w).2 ∧
    ((t.action w).1 = .ok () ↔ ∀ r ∈ (CloseAction.runAll t.leaves w).1, r = .ok ()) ∧
    CloseError.Reports (t.action w).1 (CloseAction.failures (CloseAction.runAll t.leaves w).1) ∧
    ∀ u : CloseTree σ ε, u.leaves = t.leaves → u.action = t.action := by
  have hp : p.execute = ⟨0, p.leaves.map Prod.fst, report (p.leaves.filterMap Prod.snd)⟩ := by
    simp [execute, build_eq, action_eq]
  rw [hp]
  refine ⟨p.build_eq, rfl, rfl, ?_, CloseError.reports_report _, p.action_eq, fun q hq => ?_, ?_, ?_, ?_,
    fun u hu => ?_⟩
  · rw [CloseError.report_eq_ok_iff, List.filterMap_eq_nil_iff]
  · funext log
    rw [q.action_eq, p.action_eq, hq]
  · rw [t.action_eq]
  · rw [t.action_eq, CloseError.report_eq_ok_iff, CloseAction.failures_eq_nil_iff]
  · rw [t.action_eq]
    exact CloseError.reports_report _
  · funext w
    rw [u.action_eq, t.action_eq, hu]

/-- Two of four leaves fail, and both bring errors that they suppressed themselves. -/
def ClosePlan.leaning : ClosePlan Nat :=
  compose (compose (compose (run "a" none) (run "b" (some ⟨1, [2, 3]⟩))) (run "c" none))
    (run "d" (some ⟨4, [5]⟩))

def ClosePlan.trailing : ClosePlan Nat :=
  compose (run "a" none) (compose (run "b" (some ⟨1, [2, 3]⟩)) (compose (run "c" none)
    (run "d" (some ⟨4, [5]⟩))))

theorem ClosePlan.runs_everything_leaning :
    leaning.execute.log = ["a", "b", "c", "d"] ∧ leaning.execute.result = .error ⟨1, [2, 3, 4, 5]⟩ ∧
      trailing.leaves = leaning.leaves ∧ trailing.action = leaning.action ∧
      trailing.tree.leaves = leaning.tree.leaves ∧ trailing.tree.action = leaning.tree.action := by
  have hh := runs_everything leaning leaning.tree []
  obtain ⟨-, -, hlog, -, hreport, -, hplans, -, -, -, htrees⟩ := hh
  exact ⟨hlog, (hreport.error_iff _).mpr ⟨rfl, rfl⟩, rfl, hplans _ rfl, rfl, htrees _ rfl⟩

end SplitTraversal
