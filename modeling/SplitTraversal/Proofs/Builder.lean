import Mathlib.Data.List.Forall2
import SplitTraversal.Builder.Draft
import SplitTraversal.Proofs.Buffer.Traversal
import SplitTraversal.Sequence.Reach

/-!
Builders refine drafts. The state of a builder is determined by the list that it accepted and by whether
it has been built, across all the forms in which it holds its elements; so builders and their copies
answer every run of requests as drafts do.
-/

namespace SplitTraversal

variable {α : Type u}

theorem Store.ofList_concat (xs : List α) (x : α) : ofList (xs ++ [x]) = (ofList xs).push x := by
  simp [ofList, append]

namespace Builder

/-- The builder that holds the given elements: in place up to one of them, in a store from two on. -/
def holding : List α → Builder α
  | [] => empty
  | [x] => one x
  | x :: y :: xs => many (Store.ofList (x :: y :: xs))

theorem accept_holding (xs : List α) (x : α) :
    (holding xs).accept x = (.ok (), holding (xs ++ [x])) := by
  match xs with
  | [] => rfl
  | [y] => simp [holding, accept, Store.ofList, Store.append]
  | y :: z :: xs =>
    have hpush := Store.ofList_concat (y :: z :: xs) x
    simp only [holding, accept, List.cons_append] at hpush ⊢
    rw [hpush]

theorem acceptAll_holding (xs ys : List α) :
    (holding xs).acceptAll ys = (.ok (), holding (xs ++ ys)) := by
  induction ys generalizing xs with
  | nil => simp [acceptAll]
  | cons y ys ih =>
    have hh := ih (xs ++ [y])
    simp only [acceptAll, accept_holding, hh, List.append_assoc, List.singleton_append]

theorem isBuilt_holding (xs : List α) : (holding xs).isBuilt = false := by
  match xs with
  | [] | [x] | x :: y :: xs => rfl

theorem count_holding (xs : List α) : (holding xs).count = xs.length := by
  match xs with
  | [] | [x] => rfl
  | x :: y :: xs =>
    have hlen := (Store.counted_ofList (x :: y :: xs)).length_eq
    rwa [Store.toList_ofList] at hlen

end Builder

/-- The built sequence is the sequence of the listed elements: its traversals visit them, it counts them,
and it is held in place exactly when there is at most one. -/
structure Built.Represents (b : Built α) (xs : List α) : Prop where
  toList_eq : b.toList = xs
  drain : ∀ {σ : Type u} (visit : Visitor σ α) (acc : σ), (b.drain visit acc).1 = xs.foldlM visit acc
  yields : ∀ [Numeral α], Sequence.Yields (.built b) xs
  exactSize : (Sequence.built b).exactSize = some xs.length
  inline_iff : (∃ s, b = .inline s) ↔ xs.length ≤ 1
  buffered_iff : (∃ q, b = .buffered q) ↔ 2 ≤ xs.length

theorem Inline.yields [Numeral α] (s : Inline α) : Sequence.Yields (.built (.inline s)) s.toList := by
  obtain ⟨element⟩ := s
  cases element with
  | none => exact .done rfl
  | some x => exact .visit rfl (.done rfl)

/-- Whatever sequence a queue is made into, if its advances are those of the queue. -/
theorem ChunkQueue.WellFormed.yields [Numeral α] {q : ChunkQueue α} (h : q.WellFormed)
    (embed : ChunkQueue α → Sequence α) (hembed : ∀ q, (embed q).advance Visitor.record #[] =
      (q.advance Visitor.record #[]).map id embed) : Sequence.Yields (embed q) q.toList := by
  generalize hq : q.toList = xs
  induction xs generalizing q with
  | nil =>
    have hx := ChunkQueue.advance_fst h Visitor.record #[]
    rw [hq] at hx
    exact .done ((hembed q).trans (Prod.ext hx rfl))
  | cons x xs ih =>
    have hx := ChunkQueue.advance_fst h Visitor.record #[]
    have htail := ChunkQueue.toList_advance h Visitor.record #[]
    have hw := h.advance Visitor.record #[]
    rw [hq] at hx htail
    exact .visit ((hembed q).trans (Prod.ext hx rfl)) (ih hw htail)

theorem Inline.represents (s : Inline α) : (Built.inline s).Represents s.toList where
  toList_eq := rfl
  drain := s.drain_fst
  yields := s.yields
  exactSize := by
    rw [← s.size_eq]
    rfl
  inline_iff := by
    obtain ⟨element⟩ := s
    cases element <;> simp [toList]
  buffered_iff := by
    obtain ⟨element⟩ := s
    cases element <;> simp [toList]

theorem Store.represents {xs : List α} (hx : 2 ≤ xs.length) :
    (Built.buffered (ofList xs).toQueue).Represents xs := by
  have hq := (counted_ofList xs).toQueue
  have hlist : (ofList xs).toQueue.toList = xs := by rw [toList_toQueue, toList_ofList]
  refine ⟨hlist, ?_, ?_, ?_, ?_, ?_⟩
  · intro σ visit acc
    have hd := (ofList xs).toQueue.drain_fst visit acc
    rwa [hlist] at hd
  · intro _
    have hy := hq.yields (fun q => .built (.buffered q)) fun _ => rfl
    rwa [hlist] at hy
  · have hlen := hq.length_eq
    rw [hlist] at hlen
    rw [← hlen]
    rfl
  · constructor
    · rintro ⟨s, hs⟩
      cases hs
    · intro hle
      omega
  · simp [hx]

theorem Builder.build_holding (xs : List α) :
    ∃ b, (holding xs).build = (.ok b, built xs.length) ∧ b.Represents xs := by
  match xs with
  | [] => exact ⟨.inline .empty, rfl, Inline.represents .empty⟩
  | [x] => exact ⟨.inline (.of x), rfl, Inline.represents (.of x)⟩
  | x :: y :: xs =>
    have hcount := count_holding (x :: y :: xs)
    refine ⟨.buffered (Store.ofList (x :: y :: xs)).toQueue, ?_, Store.represents (by simp)⟩
    rw [← hcount]
    rfl

def Draft.builder (d : Draft α) : Builder α :=
  if d.built then .built d.accepted.length else .holding d.accepted

/-- The state of the builder, read off the draft: the four forms according to the number of accepted
elements. -/
structure Builder.Represents (b : Builder α) (d : Draft α) : Prop where
  count_eq : b.count = d.accepted.length
  isBuilt_eq : b.isBuilt = d.built
  state : match b with
    | .empty => d.built = false ∧ d.accepted.length = 0
    | .one x => d.built = false ∧ d.accepted = [x]
    | .many s => d.built = false ∧ 2 ≤ d.accepted.length ∧ s.toList = d.accepted
    | .built _ => d.built = true

theorem Draft.builder_represents (d : Draft α) : d.builder.Represents d := by
  obtain ⟨xs, built⟩ := d
  cases built with
  | true => exact ⟨rfl, rfl, rfl⟩
  | false =>
    refine ⟨Builder.count_holding xs, Builder.isBuilt_holding xs, ?_⟩
    match xs with
    | [] | [x] => exact ⟨rfl, rfl⟩
    | x :: y :: xs => exact ⟨rfl, by simp, Store.toList_ofList _⟩

def Builder.Matches : Except Failure (Option (Built α)) → Except Failure (Option (List α)) → Prop
  | .ok (some b), .ok (some xs) => b.Represents xs
  | .ok none, .ok none => True
  | .error e, .error f => e = f
  | _, _ => False

namespace Builder

theorem acceptAll_singleton (b : Builder α) (x : α) : b.acceptAll [x] = b.accept x := by
  cases b <;> rfl

/-- Accepting appends to the draft, or is refused without a trace, in whatever way a refusal is told. -/
theorem acceptAll_builder (d : Draft α) (xs : List α) (refusal : Error → Failure) :
    let (result, b) := d.builder.acceptAll xs
    Matches ((result.mapError refusal).map fun _ => none) (d.append xs (refusal .alreadyBuilt)).1 ∧
      b = (d.append xs (refusal .alreadyBuilt)).2.builder := by
  obtain ⟨ys, built⟩ := d
  cases built with
  | true =>
    cases xs with
    | nil =>
      have hsame : (⟨ys, true⟩ : Draft α).append [] (refusal .alreadyBuilt) = (.ok none, ⟨ys, true⟩) := by
        simp [Draft.append]
      rw [hsame]
      exact ⟨trivial, rfl⟩
    | cons x xs => exact ⟨rfl, rfl⟩
  | false =>
    have hh := acceptAll_holding ys xs
    simp only [Draft.builder, Bool.false_eq_true, if_false, hh]
    exact ⟨trivial, rfl⟩

theorem build_builder (d : Draft α) :
    let (result, b) := d.builder.build
    Matches ((result.mapError .error).map some) d.build.1 ∧ b = d.build.2.builder := by
  obtain ⟨xs, built⟩ := d
  cases built with
  | true => exact ⟨rfl, rfl⟩
  | false =>
    obtain ⟨b, hb, hr⟩ := build_holding xs
    simp only [Draft.builder, Bool.false_eq_true, if_false, hb]
    exact ⟨hr, rfl⟩

/-- One call on a builder does what the call on its draft says. -/
theorem perform_builder (d : Draft α) (c : Call α) :
    Matches (d.builder.perform c).1 (d.perform c).1 ∧
      (d.builder.perform c).2 = (d.perform c).2.builder := by
  cases c with
  | accept x =>
    have hh := acceptAll_builder d [x] .error
    rw [acceptAll_singleton] at hh
    exact hh
  | acceptAll xs => exact acceptAll_builder d xs .error
  | extend xs => exact acceptAll_builder d xs fun e => .panic e.message
  | build => exact build_builder d

theorem serve_builder (ds : List (Draft α)) (r : Request α) :
    Option.Rel Matches (serve perform (ds.map Draft.builder) r).1 (serve Draft.perform ds r).1 ∧
      (serve perform (ds.map Draft.builder) r).2 = (serve Draft.perform ds r).2.map Draft.builder := by
  cases r with
  | call i c =>
    cases hd : ds[i]? with
    | none =>
      simp only [serve, List.getElem?_map, hd, Option.map_none]
      exact ⟨.none, trivial⟩
    | some d =>
      obtain ⟨hm, hs⟩ := perform_builder d c
      simp only [serve, List.getElem?_map, hd, Option.map_some, Prod.map_fst, Prod.map_snd, hs, List.map_set]
      exact ⟨.some hm, trivial⟩
  | copy i =>
    refine ⟨.none, ?_⟩
    cases hd : ds[i]? <;> simp [serve, hd]

theorem serveAll_builder (ds : List (Draft α)) (rs : List (Request α)) :
    List.Forall₂ (Option.Rel Matches) (serveAll perform (ds.map Draft.builder) rs).1
        (serveAll Draft.perform ds rs).1 ∧
      (serveAll perform (ds.map Draft.builder) rs).2 =
        (serveAll Draft.perform ds rs).2.map Draft.builder := by
  induction rs generalizing ds with
  | nil => exact ⟨.nil, rfl⟩
  | cons r rs ih =>
    obtain ⟨hm, hs⟩ := serve_builder ds r
    have hh := ih (serve Draft.perform ds r).2
    simp only [serveAll, hs, Prod.map_fst, Prod.map_snd]
    exact ⟨.cons hm hh.1, hh.2⟩

theorem build_of_perform {b : Builder α} {c : Call α} {made : Built α}
    (h : (b.perform c).1 = .ok (some made)) : b.build.1 = .ok made := by
  have hnone {ε : Type} (r : Except ε Unit) : (r.map fun _ => (none : Option (Built α))) ≠ .ok (some made) := by
    cases r <;> exact nofun
  cases c with
  | accept x | acceptAll xs | extend xs => exact absurd h (hnone _)
  | build =>
    simp only [perform, Prod.map_fst] at h
    cases hb : b.build.1 with
    | error e =>
      rw [hb] at h
      cases h
    | ok other =>
      rw [hb] at h
      cases h
      rfl

theorem exists_toQueue_of_build {d : Draft α} {q : ChunkQueue α} (h : d.builder.build.1 = .ok (.buffered q)) :
    ∃ xs, q = (Store.ofList xs).toQueue := by
  obtain ⟨xs, built⟩ := d
  cases built with
  | true => cases h
  | false =>
    match xs with
    | [] | [x] => cases h
    | x :: y :: xs =>
      cases h
      exact ⟨x :: y :: xs, rfl⟩

theorem exists_perform_of_mem_serveAll (ds : List (Draft α)) (rs : List (Request α))
    {outcome : Except Failure (Option (Built α))}
    (h : some outcome ∈ (serveAll perform (ds.map Draft.builder) rs).1) :
    ∃ (d : Draft α) (c : Call α), outcome = (d.builder.perform c).1 := by
  induction rs generalizing ds with
  | nil => cases h
  | cons r rs ih =>
    obtain ⟨-, hs⟩ := serve_builder ds r
    simp only [serveAll, hs, Prod.map_fst, List.mem_cons] at h
    obtain h | h := h
    · cases r with
      | call i c =>
        cases hd : ds[i]? with
        | none => simp [serve, hd] at h
        | some d => exact ⟨d, c, by simpa [serve, hd] using h⟩
      | copy i => cases h
    · exact ih _ h

/-- Builders refine drafts, for every run of requests on a new builder and on its copies. Every outcome
is the one that the draft gives, where a built sequence stands for the list of accepted elements; every
builder is in the state that its draft tells; one that has not been built can be built, which ends that;
and one that has been built stays exactly as it is, whatever is called. -/
theorem refines_draft (requests : List (Request α)) :
    let builders := serveAll perform [empty] requests
    let drafts := serveAll Draft.perform [Draft.new] requests
    List.Forall₂ (Option.Rel Matches) builders.1 drafts.1 ∧
    List.Forall₂ Represents builders.2 drafts.2 ∧
    ∀ b : Builder α, ((∃ made, b.build.1 = .ok made) ↔ b.isBuilt = false) ∧
      b.build.2.isBuilt = true ∧ (b.isBuilt = true → ∀ c, (b.perform c).2 = b) := by
  obtain ⟨hm, hs⟩ := serveAll_builder [Draft.new] requests
  refine ⟨hm, ?_, fun b => ⟨?_, ?_, ?_⟩⟩
  · have hstart : [Draft.new].map Draft.builder = [(empty : Builder α)] := rfl
    rw [hstart] at hs
    rw [hs, List.forall₂_map_left_iff]
    exact List.forall₂_same.mpr fun d _ => d.builder_represents
  · cases b <;> simp [build, isBuilt]
  · cases b <;> rfl
  · intro hb c
    cases b with
    | built n =>
      cases c with
      | acceptAll xs | extend xs => cases xs <;> rfl
      | _ => rfl
    | _ => cases hb

/-- A copy goes its own way, and what has been built refuses more. -/
theorem refines_draft_copied :
    let requests : List (Request Nat) :=
      [.call 0 (.accept 1), .copy 0, .call 0 (.extend [2, 3]), .call 0 .build, .call 0 (.accept 4),
        .call 1 (.acceptAll [5]), .call 0 .build]
    List.Forall₂ Represents (serveAll perform [empty] requests).2 [⟨[1, 2, 3], true⟩, ⟨[1, 5], false⟩] ∧
      (built 3 : Builder Nat).isBuilt = true ∧
      ((built 3 : Builder Nat).perform (.extend [4])).2 = built 3 := by
  have hh := refines_draft (α := Nat) [.call 0 (.accept 1), .copy 0, .call 0 (.extend [2, 3]),
    .call 0 .build, .call 0 (.accept 4), .call 1 (.acceptAll [5]), .call 0 .build]
  exact ⟨hh.2.1, rfl, (hh.2.2 (built 3)).2.2 rfl _⟩

end Builder

end SplitTraversal
