import SplitTraversal.Proofs.Sequence.Order
import SplitTraversal.Proofs.Sequence.Unwinding
import SplitTraversal.Sequence.Nodes

/-!
Two ways to exhaust a sequence. A drain and advances until one finds nothing visit the same elements and
leave nothing behind, but they leave different states: a drain changes at no node what the node says of
itself, while the advances drop every first part on the way to the rightmost leaf, which alone speaks for
the sequence in the end.
-/

namespace SplitTraversal

namespace Sequence

variable {α : Type u} {σ : Type v} {s t a b a' b' : Sequence α} {o : Bool}

/-- The sequences have the same nodes, and these say the same of themselves. -/
def Alike (s t : Sequence α) : Prop := ∀ path, (t.node? path).map profile = (s.node? path).map profile

theorem Alike.refl (s : Sequence α) : Alike s s := fun _ => rfl

theorem Alike.profile_eq (h : Alike s t) : t.profile = s.profile := Option.some.inj (h [])

theorem Alike.guarantees_eq (h : Alike s t) : t.guarantees = s.guarantees :=
  congrArg Profile.guarantees h.profile_eq

theorem Alike.comparator_eq (h : Alike s t) : t.comparator = s.comparator :=
  congrArg Profile.comparator h.profile_eq

theorem Alike.of_leaf (hs : s.IsLeaf) (ht : t.IsLeaf) (h : t.profile = s.profile) : Alike s t := by
  have hnone (l : Sequence α) (hl : l.IsLeaf) (place : Place) : l.part? place = none := by
    cases place <;> cases l <;> first | rfl | cases hl
  intro path
  cases path with
  | nil => exact congrArg some h
  | cons place path => simp [node?, hnone _ hs, hnone _ ht]

theorem Alike.both (ha : Alike a a') (hb : Alike b b') : Alike (both a b o) (both a' b' o) := by
  intro path
  cases path with
  | nil => simp [node?, profile, guarantees, comparator, isBeforeSplit, isOverflowed,
      ha.guarantees_eq, hb.guarantees_eq]
  | cons place path =>
    cases place with
    | first => exact ha path
    | second => exact hb path

theorem Alike.firstOnly (ha : Alike a a') : Alike (firstOnly a) (firstOnly a') := by
  intro path
  cases path with
  | nil => simp [node?, profile, guarantees, comparator, isBeforeSplit, isOverflowed,
      ha.guarantees_eq, ha.comparator_eq]
  | cons place path =>
    cases place with
    | first => exact ha path
    | second => rfl

theorem Alike.secondOnly (hb : Alike b b') : Alike (secondOnly b o) (secondOnly b' o) := by
  intro path
  cases path with
  | nil => simp [node?, profile, guarantees, comparator, isBeforeSplit, isOverflowed,
      hb.guarantees_eq, hb.comparator_eq]
  | cons place path =>
    cases place with
    | first => rfl
    | second => exact hb path

/-- The rightmost leaf speaks for a sequence on whose spine no concatenation has both parts. -/
theorem profile_of_resolved (h : ∀ n ∈ s.spine, n.isBeforeSplit = false) :
    s.guarantees = s.rightmost.guarantees ∧ s.comparator = s.rightmost.comparator := by
  induction s with
  | both a b o => exact absurd (h _ List.mem_cons_self) (by simp [isBeforeSplit])
  | firstOnly a ih => exact ih fun n hn => h n (List.mem_cons_of_mem _ hn)
  | secondOnly b o ih => exact ih fun n hn => h n (List.mem_cons_of_mem _ hn)
  | _ => exact ⟨rfl, rfl⟩

theorem isLeaf_rightmost (s : Sequence α) : s.rightmost.IsLeaf := by
  induction s with
  | both a b o _ ih => exact ih
  | firstOnly a ih => exact ih
  | secondOnly b o ih => exact ih
  | _ => trivial

variable [Numeral α] {visit : Visitor σ α} {acc acc' : σ}

theorem alike_drain (s : Sequence α) (visit : Visitor σ α) (acc : σ) : Alike s (s.drain visit acc).2 := by
  induction s generalizing acc with
  | built b => cases b <;> exact .of_leaf trivial trivial rfl
  | both a b o iha ihb =>
    cases hr : (a.drain visit acc).1 with
    | error e =>
      rw [drain_both_error hr]
      exact .both (iha acc) (.refl b)
    | ok acc' =>
      rw [drain_both_ok hr]
      exact .both (iha acc) (ihb acc')
  | firstOnly a ih => exact .firstOnly (ih acc)
  | secondOnly b o ih => exact .secondOnly (ih acc)
  | _ => exact .of_leaf trivial trivial rfl

theorem rightmost_advance (s : Sequence α) (visit : Visitor σ α) (acc : σ) :
    (s.advance visit acc).2.rightmost.profile = s.rightmost.profile := by
  induction s with
  | built b => cases b <;> rfl
  | supplied s =>
    show (supplied (s.advance visit acc).2).profile = _
    rw [Supplied.advance_snd]
    rfl
  | both a b o iha ihb =>
    by_cases h : ∃ acc', (a.advance visit acc).1 = .ok (acc', false)
    · rw [advance_both_dry h.choose_spec]
      exact ihb
    · rw [advance_both_found (not_exists.mp h)]
      rfl
  | firstOnly a ih => exact ih
  | secondOnly b o ih => exact ih
  | _ => rfl

theorem resolved_of_dry (h : (s.advance visit acc).1 = .ok (acc', false)) :
    ∀ n ∈ (s.advance visit acc).2.spine, n.isBeforeSplit = false := by
  induction s with
  | both a b o iha ihb =>
    -- The first part is dry and dropped, or the advance finds an element in it.
    by_cases hd : ∃ acc', (a.advance visit acc).1 = .ok (acc', false)
    · rw [advance_both_dry hd.choose_spec] at h ⊢
      exact List.forall_mem_cons.mpr ⟨rfl, ihb h⟩
    · rw [advance_both_found (not_exists.mp hd)] at h
      exact absurd ⟨acc', h⟩ hd
  | firstOnly a ih => exact List.forall_mem_cons.mpr ⟨rfl, ih h⟩
  | secondOnly b o ih => exact List.forall_mem_cons.mpr ⟨rfl, ih h⟩
  | _ => exact List.forall_mem_singleton.mpr rfl

/-- Advances until one finds nothing, with a visitor that returns every time: they take the state `acc`
to `stop` and the sequence `s` to `t`. -/
inductive Exhausts (visit : Visitor σ α) : σ → Sequence α → σ → Sequence α → Prop
  | dry {acc stop : σ} {s t : Sequence α} (h : s.advance visit acc = (.ok (stop, false), t)) :
      Exhausts visit acc s stop t
  | found {acc acc' stop : σ} {s t u : Sequence α} (h : s.advance visit acc = (.ok (acc', true), t))
      (ht : Exhausts visit acc' t stop u) : Exhausts visit acc s stop u

theorem Exhausts.rightmost_eq {stop : σ} (h : Exhausts visit acc s stop t) :
    t.rightmost.profile = s.rightmost.profile := by
  induction h with
  | @dry acc stop s t h => simpa [h] using s.rightmost_advance visit acc
  | @found acc acc' stop s t u h _ ih => exact ih.trans (by simpa [h] using s.rightmost_advance visit acc)

theorem Exhausts.resolved {stop : σ} (h : Exhausts visit acc s stop t) :
    ∀ n ∈ t.spine, n.isBeforeSplit = false := by
  induction h with
  | @dry acc stop s t h => simpa only [h] using resolved_of_dry (congrArg Prod.fst h)
  | found _ _ ih => exact ih

theorem next_of_dry (h : s.WellFormed) (hs : s.advance visit acc = (.ok (acc', false), t)) :
    s.next = (none, t) ∧ acc' = acc := by
  have hfst := advance_fst h visit acc
  have hsame : s.next.2 = (s.advance visit acc).2 := advance_snd h _ none visit acc
  rw [hs] at hfst hsame
  have hx := next_fst h
  cases hr : s.remaining with
  | nil =>
    rw [hr] at hfst hx
    exact ⟨Prod.ext hx hsame, by simpa using hfst⟩
  | cons x xs =>
    rw [hr] at hfst
    exact absurd hfst.symm (Visitor.visited_ne visit acc acc' x)

theorem next_of_found (h : s.WellFormed) (hs : s.advance visit acc = (.ok (acc', true), t)) :
    ∃ x, s.next = (some x, t) ∧ visit acc x = .ok acc' := by
  have hfst := advance_fst h visit acc
  have hsame : s.next.2 = (s.advance visit acc).2 := advance_snd h _ none visit acc
  rw [hs] at hfst hsame
  have hx := next_fst h
  cases hr : s.remaining with
  | nil => simp [hr] at hfst
  | cons x xs =>
    rw [hr] at hfst hx
    refine ⟨x, Prod.ext hx hsame, ?_⟩
    cases hv : visit acc x <;> simp_all [Visitor.visited]

theorem Exhausts.elements {stop : σ} (he : Exhausts visit acc s stop t) (h : s.WellFormed) :
    s.remaining.foldlM visit acc = .ok stop ∧ t.WellFormed ∧ t.remaining = [] := by
  induction he with
  | dry hs =>
    obtain ⟨hn, rfl⟩ := next_of_dry h hs
    obtain ⟨ht, hnil, htail⟩ := h.of_next_none hn
    exact ⟨by simp [hnil, pure, Except.pure], ht, htail⟩
  | found hs _ ih =>
    obtain ⟨x, hn, hv⟩ := next_of_found h hs
    obtain ⟨ht, hr⟩ := h.of_next_some hn
    rw [hr, Visitor.foldlM_cons_ok hv]
    exact ih ht

theorem exists_exhausts {stop : σ} (h : s.WellFormed) (hok : s.remaining.foldlM visit acc = .ok stop) :
    ∃ t, Exhausts visit acc s stop t := by
  generalize hr : s.remaining = xs at hok
  induction xs generalizing s acc with
  | nil =>
    obtain rfl : acc = stop := Except.ok.inj hok
    refine ⟨_, .dry (Prod.ext ?_ rfl)⟩
    rw [advance_fst h, hr, Visitor.first_nil]
  | cons x xs ih =>
    cases hv : visit acc x with
    | error e =>
      rw [Visitor.foldlM_cons_error hv] at hok
      cases hok
    | ok acc' =>
      rw [Visitor.foldlM_cons_ok hv] at hok
      have htail := remaining_advance h visit acc
      rw [hr, List.tail_cons] at htail
      obtain ⟨t, ht⟩ := ih (h.advance visit acc) htail hok
      refine ⟨t, .found (Prod.ext ?_ rfl) ht⟩
      rw [advance_fst h, hr, Visitor.first_cons, Visitor.visited, hv]

theorem Exhausts.exhaustWithin_eq {stop : σ} (he : Exhausts visit acc s stop t) (h : s.WellFormed)
    {fuel : Nat} (hfuel : s.remaining.length < fuel) (seen : Array α) :
    s.exhaustWithin fuel seen = (seen ++ s.remaining.toArray, t) := by
  induction he generalizing fuel seen with
  | dry hs =>
    obtain ⟨hn, -⟩ := next_of_dry h hs
    cases fuel with
    | zero => cases hfuel
    | succ fuel => simp [exhaustWithin, hn, (h.of_next_none hn).2.1]
  | found hs _ ih =>
    obtain ⟨x, hn, -⟩ := next_of_found h hs
    obtain ⟨ht, hr⟩ := h.of_next_some hn
    cases fuel with
    | zero => cases hfuel
    | succ fuel =>
      rw [hr] at hfuel ⊢
      have hh := ih ht (Nat.lt_of_succ_lt_succ hfuel) (seen.push x)
      simpa [exhaustWithin, hn] using hh

theorem Exhausts.exhaust_eq {stop : σ} (he : Exhausts visit acc s stop t) (h : s.WellFormed) :
    s.exhaust = (s.remaining.toArray, t) := by
  have hh := he.exhaustWithin_eq h (Nat.lt_succ_self _) #[]
  rw [exhaust, count_eq, hh, Array.empty_append]

/-- A drain returns exactly when advances get to the end, with the same state of the visitor. -/
theorem drain_ok_iff {stop : σ} (h : s.WellFormed) :
    (s.drain visit acc).1 = .ok stop ↔ Exhausts visit acc s stop s.exhaust.2 := by
  rw [drain_fst h]
  constructor
  · intro hok
    obtain ⟨t, ht⟩ := exists_exhausts h hok
    rwa [ht.exhaust_eq h]
  · intro he
    exact (he.elements h).1

theorem exhausts_always (h : s.WellFormed) (f : σ → α → σ) (acc : σ) :
    Exhausts (Visitor.always f) acc s (s.remaining.foldl f acc) s.exhaust.2 :=
  (drain_ok_iff h).mp ((drain_fst h _ acc).trans (Visitor.foldlM_always f acc _))

/-- Nothing is left: no advance finds an element, no drain visits one, and the pieces of a split are
empty. -/
structure Spent (s : Sequence α) : Prop where
  advance : ∀ {σ : Type u} (visit : Visitor σ α) (acc : σ), (s.advance visit acc).1 = .ok (acc, false)
  drain : ∀ {σ : Type u} (visit : Visitor σ α) (acc : σ), (s.drain visit acc).1 = .ok acc
  front : ∀ {p : Sequence α}, s.split.1 = some p → p.remaining = []
  rest : s.split.2.remaining = []

theorem WellFormed.spent (h : s.WellFormed) (hr : s.remaining = []) : s.Spent where
  advance visit acc := by rw [advance_fst h, hr, Visitor.first_nil]
  drain visit acc := by
    rw [drain_fst h, hr]
    rfl
  front hp := List.sublist_nil.mp (hr ▸ (remnant_front hp).sublist h)
  rest := List.sublist_nil.mp (hr ▸ (remnant_rest s).sublist h)

theorem steps_spent (h : s.WellFormed) (hr : s.remaining = []) (hst : Relation.ReflTransGen Step s t) :
    t.Spent := by
  have hh := steps_preserve (P := fun s => s.WellFormed ∧ s.remaining = [])
    (fun s t hrem hs => ⟨hrem.wellFormed hs.1, List.sublist_nil.mp (hs.2 ▸ hrem.sublist hs.1)⟩)
    hst ⟨h, hr⟩
  exact hh.1.spent hh.2

/-- Draining against advancing to the end, in every sequence that can arise. A visitor gets the same
elements from both, in the same order, and neither leaves anything for whatever is done afterwards. A
drain, abandoned or not, leaves at every node what the node says of itself. Advances leave a sequence
that says what its rightmost leaf says, which is the rightmost leaf from before; no concatenation on
the way there has both parts. -/
theorem exhaustion_compared (h : Reachable Made s) :
    (s.exhaust.1 = s.remaining.toArray ∧
      (∀ {σ : Type u} (f : σ → α → σ) (acc : σ),
        (s.drain (Visitor.always f) acc).1 = .ok (s.remaining.foldl f acc) ∧
          Exhausts (Visitor.always f) acc s (s.remaining.foldl f acc) s.exhaust.2) ∧
      ∀ {σ : Type u} (visit : Visitor σ α) (acc stop : σ),
        ((s.drain visit acc).1 = .ok stop ↔ Exhausts visit acc s stop s.exhaust.2) ∧
          ∀ t, Exhausts visit acc s stop t → t = s.exhaust.2) ∧
    ((∀ {σ : Type u} (visit : Visitor σ α) (acc stop : σ), (s.drain visit acc).1 = .ok stop →
        ∀ t, Relation.ReflTransGen Step (s.drain visit acc).2 t → t.Spent) ∧
      ∀ t, Relation.ReflTransGen Step s.exhaust.2 t → t.Spent) ∧
    (∀ {σ : Type u} (visit : Visitor σ α) (acc : σ) (path : List Place),
      ((s.drain visit acc).2.node? path).map profile = (s.node? path).map profile) ∧
    (s.exhaust.2.rightmost.IsLeaf ∧ s.exhaust.2.rightmost.profile = s.rightmost.profile ∧
      s.exhaust.2.guarantees = s.exhaust.2.rightmost.guarantees ∧
      s.exhaust.2.comparator = s.exhaust.2.rightmost.comparator ∧
      ∀ n ∈ s.exhaust.2.spine, n.isBeforeSplit = false) := by
  have hw := h.wellFormed fun _ hm => hm.wellFormed
  have hend := exhausts_always hw Array.push #[]
  obtain ⟨-, hwend, hnil⟩ := hend.elements hw
  have hsays := profile_of_resolved hend.resolved
  refine ⟨⟨?_, fun f acc => ⟨(hw.conserves.drain f acc).1, exhausts_always hw f acc⟩,
    fun visit acc stop => ⟨drain_ok_iff hw, fun t ht => ?_⟩⟩, ⟨fun visit acc stop hok t ht => ?_,
    fun t ht => steps_spent hwend hnil ht⟩, fun visit acc => alike_drain s visit acc,
    isLeaf_rightmost _, hend.rightmost_eq, hsays.1, hsays.2, hend.resolved⟩
  · rw [hend.exhaust_eq hw]
  · rw [ht.exhaust_eq hw]
  · rw [drain_fst hw] at hok
    exact steps_spent (hw.drain visit acc) (remaining_drain hw hok) ht

/-- Two supplied items with their order, and a range behind them: a drain leaves the order open, while
advances leave the range, which is sorted. -/
theorem exhaustion_compared_turning :
    Reachable Made turning ∧ turning.exhaust.1 = #[7, 5, 0, 1, 2] ∧
      (turning.drain Visitor.record #[]).1 = .ok #[7, 5, 0, 1, 2] ∧
      (turning.drain Visitor.record #[]).2.comparator = .error .unresolved ∧
      Flag.sorted ∉ (turning.drain Visitor.record #[]).2.guarantees ∧
      turning.exhaust.2.comparator = .ok .natural ∧ Flag.sorted ∈ turning.exhaust.2.guarantees := by
  have hr : Reachable Made turning := turning_reachable.mono fun _ hp => hp.1
  obtain ⟨⟨hseen, hvisit, -⟩, -, hdrain, -, -, hguar, hcomp, -⟩ := exhaustion_compared hr
  have hnode : (turning.drain Visitor.record #[]).2.profile = turning.profile :=
    Option.some.inj (hdrain Visitor.record #[] [])
  refine ⟨hr, hseen.trans (by decide), (hvisit Array.push #[]).1.trans (congrArg _ (by decide)),
    congrArg Profile.comparator hnode, ?_, hcomp.trans ?_, ?_⟩
  · rw [show (turning.drain Visitor.record #[]).2.guarantees = turning.guarantees from
      congrArg Profile.guarantees hnode]
    decide
  · rfl
  · rw [hguar]
    decide

end Sequence

end SplitTraversal
