import Mathlib.Algebra.Group.Nat.Defs
import SplitTraversal.Proofs.Parallel
import SplitTraversal.Proofs.Sequence.Leaves
import SplitTraversal.Search

/-!
A parallel search finds a match exactly when there is one, whatever is split, in whatever order the pieces
are folded, and however late a receiver notices that a match has been found. Every receiver gets the
longest prefix of its piece that its answers allow, and nothing else is taken off the piece.
-/

namespace SplitTraversal

namespace Sequence

variable {α : Type u} [Numeral α] {s : Sequence α}

theorem handOver_longest (h : s.WellFormed) (answers : Nat → Bool) :
    LongestPrefix answers s.remaining (s.handOver answers).1 (s.handOver answers).2.remaining := by
  have hcollect (xs : List α) : xs.foldl (fun given x => given ++ [x]) [] = xs := by
    simp [← List.flatMap_def]
  obtain ⟨given, hgot, hlong⟩ := feed_longest h (fun given => answers given.length)
    (fun given x => given ++ [x]) []
  rw [hcollect] at hgot
  subst hgot
  -- The receiver has as many elements as it has been asked questions, and never more than there are.
  have hlen (i : Nat) (hi : i ≤ s.remaining.length) :
      ((s.remaining.take i).foldl (fun given x => given ++ [x]) []).length = i := by
    rw [hcollect, List.length_take, Nat.min_eq_left hi]
  have htotal := congrArg List.length hlong.append_eq
  rw [List.length_append] at htotal
  refine ⟨hlong.append_eq, fun i hi => ?_, fun hne => ?_⟩
  · rw [← hlen i (by rw [handOver] at hi; omega)]
    exact hlong.of_lt i hi
  · have hh := hlong.of_left hne
    rw [hlen _ (by omega)] at hh
    exact hh

end Sequence

variable {α : Type u} {p : α → Bool}

namespace Fold

variable {f : Fold α}

theorem item_eq (p : α → Bool) (f : Fold α) : f.item p = f.given.reverse.find? p := by
  rw [item, ← f.given.reverse_reverse, List.foldl_reverse, List.reverse_reverse]
  induction f.given.reverse with
  | nil => rfl
  | cons x xs ih =>
    rw [List.foldr_cons, ih, List.find?_cons]
    cases p x <;> rfl

theorem item_isSome (p : α → Bool) (f : Fold α) : (f.item p).isSome = f.given.any p := by
  rw [item_eq, Bool.eq_iff_iff]
  simp

theorem of_item {x : α} (h : f.item p = some x) : x ∈ f.given ∧ p x = true := by
  rw [item_eq] at h
  exact ⟨List.mem_reverse.mp (List.mem_of_find?_eq_some h), List.find?_some h⟩

variable [Numeral α]

/-- A fold that goes on: the receiver was never full, and it got one element for each answer. -/
structure Going (f : Fold α) : Prop where
  piece : f.piece.WellFormed
  rest : f.rest.WellFormed
  elements : f.given ++ f.rest.remaining = f.piece.remaining
  answers : f.answers = List.replicate f.given.length false
  /-- Handing over goes on from here, as long as the answers so far are what they are. -/
  resume : ∀ answers : Nat → Bool, (∀ i < f.given.length, answers i = false) → ∀ fuel,
    Sequence.feedWithin (fun given => answers given.length) (fun given x => given ++ [x])
        (fuel + f.given.length) [] f.piece =
      Sequence.feedWithin (fun given => answers given.length) (fun given x => given ++ [x])
        fuel f.given f.rest

/-- A fold that is over: it handed over what its answers allow, and the receiver got one element for each
answer but the last, which was that it is full, or found nothing left. -/
structure Over (f : Fold α) : Prop where
  handed : f.piece.handOver (fun i => f.answers.getD i true) = (f.given, f.rest)
  allowed : LongestPrefix (fun i => f.answers.getD i true) f.piece.remaining f.given f.rest.remaining
  answers : f.answers = List.replicate f.given.length false ++ [true] ∨
    f.answers = List.replicate f.given.length false ++ [false] ∧ f.rest.remaining = []

theorem going_start {s : Sequence α} (h : s.WellFormed) : (start s).Going where
  piece := h
  rest := h
  elements := rfl
  answers := rfl
  resume _ _ _ := rfl

theorem Going.give (h : f.Going) {x : α} {t : Sequence α} (hn : f.rest.next = (some x, t)) :
    (f.give x t).Going := by
  obtain ⟨ht, hr⟩ := h.rest.of_next_some hn
  refine ⟨h.piece, ht, ?_, ?_, fun answers hopen fuel => ?_⟩
  · simp [Fold.give, ← h.elements, hr]
  · simp [Fold.give, h.answers, List.replicate_succ']
  · have hlen : (f.give x t).given.length = f.given.length + 1 := by simp [Fold.give]
    rw [hlen] at hopen ⊢
    have hh := h.resume answers (fun i hi => hopen i (by omega)) (fuel + 1)
    rw [Nat.add_right_comm, Nat.add_assoc] at hh
    refine hh.trans ?_
    simp [Sequence.feedWithin, hopen _ (Nat.lt_succ_self _), hn, Fold.give]

theorem Going.handOver_eq (h : f.Going) {answers : Nat → Bool}
    (hopen : ∀ i < f.given.length, answers i = false) :
    f.piece.handOver answers =
      Sequence.feedWithin (fun given => answers given.length) (fun given x => given ++ [x])
        (f.rest.remaining.length + 1) f.given f.rest := by
  have hlen := congrArg List.length h.elements
  rw [List.length_append] at hlen
  have hfuel : f.piece.count + 1 = f.rest.remaining.length + 1 + f.given.length := by
    rw [Sequence.count_eq]
    omega
  rw [Sequence.handOver, Sequence.feed, hfuel]
  exact h.resume answers hopen _

theorem over_of_handed (h : f.piece.WellFormed)
    (handed : f.piece.handOver (fun i => f.answers.getD i true) = (f.given, f.rest))
    (answers : f.answers = List.replicate f.given.length false ++ [true] ∨
      f.answers = List.replicate f.given.length false ++ [false] ∧ f.rest.remaining = []) : f.Over := by
  refine ⟨handed, ?_, answers⟩
  have hh := Sequence.handOver_longest h fun i => f.answers.getD i true
  rwa [handed] at hh

theorem Going.stop (h : f.Going) : f.stop.Over := by
  have hopen : ∀ i < f.given.length, f.stop.answers.getD i true = false := by
    intro i hi
    simp [Fold.stop, h.answers, List.getElem?_append_left, hi]
  refine over_of_handed h.piece ((h.handOver_eq hopen).trans ?_) (.inl (congrArg (· ++ [true]) h.answers))
  simp [Sequence.feedWithin, Fold.stop, h.answers]

theorem Going.close (h : f.Going) {t : Sequence α} (hn : f.rest.next = (none, t)) : (f.close t).Over := by
  have hall : (f.close t).answers = List.replicate (f.given.length + 1) false := by
    rw [List.replicate_succ', ← h.answers]
    rfl
  have hopen : ∀ i < f.given.length + 1, (f.close t).answers.getD i true = false := by
    intro i hi
    simp [hall, hi]
  refine over_of_handed h.piece ((h.handOver_eq fun i hi => hopen i (Nat.lt_succ_of_lt hi)).trans ?_)
    (.inr ⟨congrArg (· ++ [false]) h.answers, (h.rest.of_next_none hn).2.2⟩)
  simp only [Sequence.feedWithin, hopen _ (Nat.lt_succ_self _), hn]
  rfl

end Fold

namespace Search

variable {t u : Search α} {r : Option α}

theorem result_join_eq {l r : Search α} {z : Option α} (h : (join l r).result p = some z) :
    ∃ x y, l.result p = some x ∧ r.result p = some y ∧ x.or y = z := by
  simp only [result] at h
  split at h
  · exact ⟨_, _, ‹_›, ‹_›, Option.some.inj h⟩
  · cases h

theorem isSome_result (h : t.result p = some r) : r.isSome = t.found p := by
  induction t generalizing r with
  | pending | folding => cases h
  | skipped s =>
    cases h
    rfl
  | folded f =>
    cases h
    exact f.item_isSome p
  | join l r ihl ihr =>
    obtain ⟨x, y, hl, hr, rfl⟩ := result_join_eq h
    rw [Option.isSome_or, ihl hl, ihr hr, found]

variable [Numeral α] {b : Bool}

def elements : Search α → List α
  | pending s | skipped s => s.remaining
  | folding f | folded f => f.given ++ f.rest.remaining
  | join l r => l.elements ++ r.elements

/-- The elements that no receiver will get. -/
def missed : Search α → List α
  | pending _ | folding _ => []
  | skipped s => s.remaining
  | folded f => f.rest.remaining
  | join l r => l.missed ++ r.missed

/-- The pieces are well formed, and their folds follow the answers of their receivers. -/
def Lawful : Search α → Prop
  | pending s | skipped s => s.WellFormed
  | folding f => f.Going
  | folded f => f.Over
  | join l r => l.Lawful ∧ r.Lawful

/-- Grows smaller with every step. A split makes two pieces of one, but both weigh less, and two powers of
three do not make up for the next one. -/
def work : Search α → Nat
  | pending s => 3 ^ (s.weight + 1) + s.remaining.length + 1
  | folding f => f.rest.remaining.length + 1
  | skipped _ | folded _ => 0
  | join l r => l.work + r.work

theorem Step.lawful (hs : Step b t u) (h : t.Lawful) : u.Lawful ∧ u.elements = t.elements := by
  induction hs with
  | skip => exact ⟨h, rfl⟩
  | split hs =>
    obtain ⟨hfront, hrest, hcut⟩ := Sequence.WellFormed.split_some h hs
    exact ⟨⟨hfront, hrest⟩, hcut⟩
  | whole hs =>
    obtain rfl := Sequence.WellFormed.split_whole h hs
    exact ⟨Fold.going_start h, rfl⟩
  | fold => exact ⟨Fold.going_start h, rfl⟩
  | stop => exact ⟨Fold.Going.stop h, rfl⟩
  | give hn =>
    have hh := Fold.Going.give h hn
    exact ⟨hh, hh.elements.trans h.elements.symm⟩
  | close hn =>
    have hh := Fold.Going.close h hn
    exact ⟨hh, hh.allowed.append_eq.trans h.elements.symm⟩
  | left _ ih => exact ⟨⟨(ih h.1).1, h.2⟩, congrArg (· ++ _) (ih h.1).2⟩
  | right _ ih => exact ⟨⟨h.1, (ih h.2).1⟩, congrArg (_ ++ ·) (ih h.2).2⟩

theorem Step.found (hs : Step b t u) (h : t.found p = true) : u.found p = true := by
  induction hs with
  | skip | split | whole | fold => cases h
  | stop => exact h
  | give => simp_all [Search.found, Fold.give]
  | close => exact h
  | left _ ih =>
    simp only [Search.found, Bool.or_eq_true] at h ⊢
    exact h.imp_left ih
  | right _ ih =>
    simp only [Search.found, Bool.or_eq_true] at h ⊢
    exact h.imp_right ih

/-- Elements are missed only when a match has been found. -/
theorem Step.missed (hs : Step false t u) (h : t.Lawful) (hm : t.missed = []) : u.missed = [] := by
  generalize hb : false = b at hs
  induction hs with
  | skip hf | stop hf =>
    subst hb
    cases hf
  | split | whole | fold | give => rfl
  | close hn => exact (h.rest.of_next_none hn).2.2
  | left _ ih =>
    obtain ⟨hl, hr⟩ := List.append_eq_nil_iff.mp hm
    exact List.append_eq_nil_iff.mpr ⟨ih h.1 hl, hr⟩
  | right _ ih =>
    obtain ⟨hl, hr⟩ := List.append_eq_nil_iff.mp hm
    exact List.append_eq_nil_iff.mpr ⟨hl, ih h.2 hr⟩

theorem Step.work_lt (hs : Step b t u) (h : t.Lawful) : u.work < t.work := by
  induction hs with
  | skip | stop | close => simp [work]
  | @split s front rest hs =>
    have hlen := congrArg List.length (Sequence.WellFormed.split_some h hs).2.2
    have hw := Sequence.weight_split h (congrArg Prod.fst hs)
    rw [hs] at hw
    rw [List.length_append] at hlen
    dsimp only at hw
    -- Both pieces weigh less, and two powers of three do not make up for the next one.
    have hfront := Nat.pow_le_pow_right (n := 3) (by decide) (Nat.succ_le_of_lt hw.1)
    have hrest := Nat.pow_le_pow_right (n := 3) (by decide) (Nat.succ_le_of_lt hw.2)
    have hone : 3 ^ 1 ≤ 3 ^ s.weight := Nat.pow_le_pow_right (by decide) (by omega)
    simp only [work, Nat.pow_succ 3 s.weight]
    omega
  | @whole s t hs =>
    obtain rfl := Sequence.WellFormed.split_whole h hs
    have hpos : 0 < 3 ^ (t.weight + 1) := Nat.pow_pos (by decide)
    simp only [work, Fold.start]
    omega
  | @fold s =>
    have hpos : 0 < 3 ^ (s.weight + 1) := Nat.pow_pos (by decide)
    simp only [work, Fold.start]
    omega
  | give hn =>
    simp [work, Fold.give, (h.rest.of_next_some hn).2]
  | left _ ih => exact Nat.add_lt_add_right (ih h.1) _
  | right _ ih => exact Nat.add_lt_add_left (ih h.2) _

theorem of_result {x : α} (h : t.result p = some (some x)) : x ∈ t.elements ∧ p x = true := by
  induction t with
  | pending | folding | skipped => cases h
  | folded f =>
    obtain ⟨hx, hp⟩ := Fold.of_item (Option.some.inj h)
    exact ⟨List.mem_append_left _ hx, hp⟩
  | join l r ihl ihr =>
    obtain ⟨y, z, hl, hr, hor⟩ := result_join_eq h
    obtain rfl | ⟨-, rfl⟩ := Option.or_eq_some_iff.mp hor
    · exact (ihl hl).imp_left (List.mem_append_left _)
    · exact (ihr hr).imp_left (List.mem_append_right _)

theorem any_elements (h : t.result p = some r) :
    t.elements.any p = (t.found p || t.missed.any p) := by
  induction t generalizing r with
  | pending | folding => cases h
  | skipped s => rfl
  | folded f => exact List.any_append
  | join l r ihl ihr =>
    obtain ⟨x, y, hl, hr, -⟩ := result_join_eq h
    simp only [elements, missed, found, List.any_append, ihl hl, ihr hr]
    ac_rfl

theorem exists_step (b : Bool) (h : t.result p = none) : ∃ u, Step b t u := by
  induction t with
  | pending s => exact ⟨_, .fold⟩
  | skipped | folded => cases h
  | folding f =>
    cases hn : f.rest.next with | mk x t =>
    cases x with
    | none => exact ⟨_, .close hn⟩
    | some x => exact ⟨_, .give hn⟩
  | join l r ihl ihr =>
    cases hl : l.result p with
    | none => exact (ihl hl).imp' (join · r) fun _ => .left
    | some x =>
      cases hr : r.result p with
      | none => exact (ihr hr).imp' (join l ·) fun _ => .right
      | some y => simp [result, hl, hr] at h

variable {s : Sequence α}

/-- What holds along a run: the pieces hold the elements of the sequence, in order, and none is missed
before a match has been found. -/
theorem run_lawful (h : s.WellFormed) (hrun : Relation.ReflTransGen (Next p) (pending s) t) :
    t.Lawful ∧ t.elements = s.remaining ∧ (t.found p = false → t.missed = []) := by
  induction hrun with
  | refl => exact ⟨h, rfl, fun _ => rfl⟩
  | @tail t u _ hs ih =>
    obtain ⟨hlaw, helem, hmiss⟩ := ih
    have hh := Step.lawful hs hlaw
    refine ⟨hh.1, hh.2.trans helem, fun hf => ?_⟩
    -- What has been found stays found, so the last step was taken before there was a match.
    have hnone : t.found p = false := by
      by_contra hsome
      simp [Step.found hs (by simpa using hsome)] at hf
    rw [Next, hnone] at hs
    exact hs.missed hlaw (hmiss hnone)

theorem run_result (h : s.WellFormed) (hrun : Relation.ReflTransGen (Next p) (pending s) t)
    (hr : t.result p = some r) : r.isSome = s.remaining.any p := by
  obtain ⟨-, helem, hmiss⟩ := run_lawful h hrun
  rw [isSome_result hr, ← helem, any_elements hr]
  cases hf : t.found p with
  | false => simp [hmiss hf]
  | true => rfl

/-- No run goes on for ever. -/
theorem run_ends (h : s.WellFormed) (run : Nat → Search α) (h0 : run 0 = pending s) :
    ∃ n, ¬ (run n).Next p (run (n + 1)) := by
  by_contra hall
  simp only [not_exists, not_not] at hall
  -- Every step takes at least one off the work that is left.
  have hfall (n : Nat) : (run n).Lawful ∧ (run n).work + n ≤ (run 0).work := by
    induction n with
    | zero => exact ⟨h0 ▸ h, Nat.le_refl _⟩
    | succ n ih =>
      have hlt := Step.work_lt (hall n) ih.1
      exact ⟨((hall n).lawful ih.1).1, by omega⟩
  have hh := (hfall ((run 0).work + 1)).2
  omega

theorem runs_left {l l' : Search α} (h : Relation.ReflTransGen (Next p) l l') (s : Sequence α) :
    Relation.ReflTransGen (Next p) (join l (pending s)) (join l' (pending s)) := by
  refine h.lift (join · (pending s)) fun l l' hs => ?_
  show Step (l.found p || false) _ _
  rw [Bool.or_false]
  exact .left hs

theorem runs_right {l r r' : Search α} (hl : l.found p = false) (h : Relation.ReflTransGen (Next p) r r') :
    Relation.ReflTransGen (Next p) (join l r) (join l r') := by
  refine h.lift (join l) fun r r' hs => ?_
  show Step (l.found p || r.found p) _ _
  rw [hl, Bool.false_or]
  exact .right hs

theorem run_feedWithin {f : Fold α} (h : f.rest.WellFormed) (hnone : f.given.any p = false) {fuel : Nat}
    (hfuel : f.rest.remaining.length < fuel) :
    ∃ g : Fold α, Relation.ReflTransGen (Next p) (folding f) (folded g) ∧
      g.item p = (Sequence.feedWithin Option.isSome (fun _ x => if p x then some x else none) fuel none
        f.rest).1 := by
  induction fuel generalizing f with
  | zero => cases hfuel
  | succ fuel ih =>
    cases hn : f.rest.next with | mk x t =>
    cases x with
    | none =>
      refine ⟨f.close t, .single (.close hn), ?_⟩
      have hitem : (f.close t).item p = none := by
        rw [Fold.item_eq, List.find?_eq_none]
        simpa [Fold.close] using hnone
      simpa [Sequence.feedWithin, hn] using hitem
    | some x =>
      obtain ⟨ht, hr⟩ := h.of_next_some hn
      have hgive : Next p (folding f) (folding (f.give x t)) := .give hn
      by_cases hp : p x = true
      · have hfound : (folding (f.give x t)).found p = true := by simp [found, Fold.give, hp]
        refine ⟨(f.give x t).stop, .tail (.single hgive) (.stop hfound), ?_⟩
        cases fuel <;> simp [Sequence.feedWithin, hn, Fold.item, Fold.stop, Fold.give, hp]
      · rw [hr] at hfuel
        obtain ⟨g, hrun, hitem⟩ := ih (f := f.give x t) ht (by simp [Fold.give, hnone, hp])
          (Nat.lt_of_succ_lt_succ hfuel)
        refine ⟨g, .head hgive hrun, hitem.trans ?_⟩
        simp [Sequence.feedWithin, hn, hp, Fold.give]

theorem run_findIn (h : s.WellFormed) (p : α → Bool) :
    ∃ t, Relation.ReflTransGen (Next p) (folding (.start s)) t ∧ t.result p = some (s.findIn p) := by
  have hfuel : s.remaining.length < s.count + 1 := by
    rw [Sequence.count_eq]
    exact Nat.lt_succ_self _
  obtain ⟨g, hrun, hitem⟩ := run_feedWithin (f := .start s) (p := p) h rfl hfuel
  exact ⟨folded g, hrun, congrArg some hitem⟩

/-- Traversing the pieces of a schedule from left to right is one of the runs. -/
theorem run_find (h : s.WellFormed) (p : α → Bool) (plan : Schedule) :
    ∃ t, Relation.ReflTransGen (Next p) (pending s) t ∧ t.result p = some (s.find p plan) := by
  induction plan generalizing s with
  | traverse =>
    obtain ⟨t, hrun, hr⟩ := run_findIn h p
    exact ⟨t, .head .fold hrun, hr⟩
  | split front rest ihf ihr =>
    cases hs : s.split with | mk q s' =>
    cases q with
    | none =>
      obtain rfl := h.split_whole hs
      obtain ⟨t, hrun, hr⟩ := run_findIn h p
      refine ⟨t, .head (.whole hs) hrun, ?_⟩
      rw [hr, Sequence.find, hs]
    | some q =>
      obtain ⟨hq, hs', -⟩ := h.split_some hs
      obtain ⟨l, hlrun, hl⟩ := ihf hq
      have hjoin : Relation.ReflTransGen (Next p) (pending s) (join l (pending s')) :=
        .head (.split hs) (runs_left hlrun s')
      have hfound := isSome_result hl
      cases hx : q.find p front with
      | some x =>
        rw [hx] at hl hfound
        refine ⟨join l (skipped s'), hjoin.tail (.right (.skip ?_)), ?_⟩
        · rw [found, ← hfound]
          rfl
        · simp [result, hl, Sequence.find, hs, hx]
      | none =>
        rw [hx] at hl hfound
        obtain ⟨r, hrrun, hr⟩ := ihr hs'
        refine ⟨join l r, hjoin.trans (runs_right hfound.symm hrrun), ?_⟩
        simp [result, hl, hr, Sequence.find, hs, hx]

theorem over_of_mem_folds {f : Fold α} (h : t.Lawful) (hf : f ∈ t.folds) : f.Over := by
  induction t with
  | pending | skipped | folding => cases hf
  | folded g =>
    obtain rfl := List.mem_singleton.mp hf
    exact h
  | join l r ihl ihr => exact (List.mem_append.mp hf).elim (ihl h.1) (ihr h.2)

/-- Searching in parallel, in every sequence that can arise. Whatever is split, in whatever order the
pieces are folded, and whenever receivers notice that a match has been found, a search that has come to
an end has found an element that matches if there is one and nothing otherwise; it can go on until then,
and it does come to an end. On every piece the receiver got the longest prefix that its answers allow, one
element for each answer that it is not full, and the elements behind this prefix are still there. The
search that goes from left to right is one of the runs. -/
theorem search_outcome {s : Sequence α} (h : Sequence.Reachable Sequence.Made s) (p : α → Bool) :
    (∀ t, Relation.ReflTransGen (Next p) (pending s) t →
      (∀ r, t.result p = some r →
        (r.isSome = true ↔ ∃ x ∈ s.remaining, p x = true) ∧
          ∀ x, r = some x → x ∈ s.remaining ∧ p x = true) ∧
      (t.result p = none → ∃ u, t.Next p u) ∧
      t.elements = s.remaining ∧ ∀ f ∈ t.folds, f.Over) ∧
    (∀ run : Nat → Search α, run 0 = pending s → ∃ n, ¬ (run n).Next p (run (n + 1))) ∧
    (∀ piece, Relation.ReflTransGen Sequence.Step s piece →
      (∀ answers : Nat → Bool, LongestPrefix answers piece.remaining (piece.handOver answers).1
        (piece.handOver answers).2.remaining) ∧
      ∀ {β : Type v} (full : β → Bool) (consume : β → α → β) (acc : β),
        ∃ given, (piece.feed full consume acc).1 = given.foldl consume acc ∧
          LongestPrefix (fun i => full ((piece.remaining.take i).foldl consume acc)) piece.remaining given
            (piece.feed full consume acc).2.remaining) ∧
    (∀ plan, ∃ t, Relation.ReflTransGen (Next p) (pending s) t ∧ t.result p = some (s.find p plan)) := by
  have hw := h.wellFormed fun _ hm => hm.wellFormed
  refine ⟨fun t hrun => ?_, run_ends hw, fun piece hst => ?_, run_find hw p⟩
  · obtain ⟨hlaw, helem, -⟩ := run_lawful hw hrun
    refine ⟨fun r hr => ⟨?_, fun x hx => ?_⟩, exists_step (t.found p), helem,
      fun f hf => over_of_mem_folds hlaw hf⟩
    · rw [run_result hw hrun hr, List.any_eq_true]
    · rw [hx] at hr
      exact helem ▸ of_result hr
  · exact ⟨Sequence.handOver_longest (hw.steps hst), Sequence.feed_longest (hw.steps hst)⟩

/-- Two elements match, the last two of all: a search from left to right finds the first of them, and
every search finds one of them. -/
theorem search_outcome_sample :
    Sequence.Reachable Sequence.Made Sequence.sample ∧
      (∃ t, Relation.ReflTransGen (Next fun x => decide (9 < x)) (pending Sequence.sample) t ∧
        t.result (fun x => decide (9 < x)) = some (some 10)) ∧
      ∀ t r, Relation.ReflTransGen (Next fun x => decide (9 < x)) (pending Sequence.sample) t →
        t.result (fun x => decide (9 < x)) = some r → r = some 10 ∨ r = some 11 := by
  have hr : Sequence.Reachable Sequence.Made Sequence.sample :=
    Sequence.sample_reachable.mono fun _ hp => hp.1
  obtain ⟨hend, -, -, hfind⟩ := search_outcome.{0, 0} hr fun x => decide (9 < x)
  refine ⟨hr, hfind (.split .traverse .traverse), fun t r hrun ht => ?_⟩
  obtain ⟨hsome, hmatch⟩ := (hend t hrun).1 r ht
  obtain ⟨x, rfl⟩ := Option.isSome_iff_exists.mp (hsome.mpr ⟨10, by decide, by decide⟩)
  obtain ⟨hx, hp⟩ := hmatch x rfl
  have hcases : ∀ y ∈ Sequence.sample.remaining, decide (9 < y) = true → some y = some 10 ∨ some y = some 11 := by
    decide
  exact hcases x hx hp

end Search

end SplitTraversal
