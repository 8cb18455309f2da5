import Mathlib.Data.List.Forall2
import Mathlib.Logic.Relation
import SplitTraversal.Proofs.Range.Traversal

/-!
Checkpoints restore what was stored. A range is restored only after its bounds have passed the checks of
a new range, and the ranges that pass are exactly the well-formed ones. Every range that can arise is well
formed at every point of its traversal, so it can be stored there and comes back as it was. What is read
from other values has one stored form as well, and that form reads back the same.
-/

namespace SplitTraversal

/-- Exactly one member has the name, and its value is `x`. -/
def Json.HasMember (members : List (String × Json)) (name : String) (x : Json) : Prop :=
  ∃ before after, members = before ++ (name, x) :: after ∧ ∀ m ∈ before ++ after, m.1 ≠ name

/-- The values are those of the named fields of `v`. In an object each stands behind its name, which occurs
once, wherever that is and whatever else there is. An array holds nothing but the values, in order. -/
inductive Json.Holds (names : List String) : Json → List Json → Prop
  | object {members : List (String × Json)} {xs : List Json}
      (h : List.Forall₂ (HasMember members) names xs) : Holds names (.object members) xs
  | array {items : List Json} (h : items.length = names.length) : Holds names (.array items) items

namespace Range

variable {r t : Range}

theorem fields?_encode (r : Range) :
    r.encode.fields? fieldNames = some [.int r.cursor, .int r.bound, .bool r.pending] := rfl

theorem decode_encode_iff : decode r.width r.encode = .ok r ↔ r.WellFormed := by
  rw [decode, fields?_encode, wellFormed_iff]
  dsimp only
  split
  · rename_i hf
    simp [mapError_eq_ok_iff, hf.1, hf.2]
  · rename_i hf
    simp only [reduceCtorEq, false_iff]
    rintro ⟨hc, hb, -⟩
    exact hf ⟨hc, hb⟩

theorem Step.width_eq (hs : Step r t) : t.width = r.width := by
  cases hs with
  | advance visit acc =>
    rw [advance_snd]
    split
    · rfl
    · split <;> rfl
  | drain visit acc => rw [drain_snd]
  | rest =>
    rw [split]
    split <;> rfl
  | front hp =>
    rw [split] at hp
    split at hp
    · cases hp
    · cases hp
      rfl

theorem steps_width_eq (hst : Relation.ReflTransGen Step r t) : t.width = r.width := by
  induction hst with
  | refl => rfl
  | tail _ hs ih => exact hs.width_eq.trans ih

theorem Reachable.steps (h : Reachable r) (hst : Relation.ReflTransGen Step r t) : Reachable t := by
  induction hst with
  | refl => exact h
  | tail _ hs ih => exact .step ih hs

/-- Checkpoints round-trip at every point. Whatever has been done to a range that can arise, abandoned
traversals and splits included, what is left or handed out is written as an object of its three fields,
and reading that as a range of the same width gives it back unchanged. -/
theorem checkpoint_restores (h : Reachable r) (hst : Relation.ReflTransGen Step r t) :
    t.encode = .object
      [("from", .int t.cursor), ("up_to", .int t.bound), ("last_pending", .bool t.pending)] ∧
    t.width = r.width ∧ decode r.width t.encode = .ok t := by
  have hw := steps_width_eq hst
  refine ⟨rfl, hw, ?_⟩
  rw [← hw]
  exact decode_encode_iff.mpr (h.steps hst).wellFormed

/-- The largest range of 64 bits, closed at the greatest integer: it is split, and the rest is advanced
by a visitor that raises. -/
theorem checkpoint_restores_largest :
    let r : Range := ⟨.word64, 1, 9223372036854775807, true⟩
    let t := (r.split.2.advance Visitor.refuse ()).2
    Reachable r ∧ Relation.ReflTransGen Step r t ∧
      t = ⟨.word64, 1152921504606846977, 9223372036854775807, true⟩ ∧ decode .word64 t.encode = .ok t := by
  have hr : Reachable ⟨.word64, 1, 9223372036854775807, true⟩ :=
    .closed (by decide : Width.word64.Fits 1) (by decide : Width.word64.Fits 9223372036854775807) rfl
  have hst := (Relation.ReflTransGen.single (Step.rest (r := ⟨.word64, 1, 9223372036854775807, true⟩))).tail
    (.advance Visitor.refuse ())
  exact ⟨hr, hst, by decide, (checkpoint_restores hr hst).2.2⟩

end Range

namespace Json

variable {names : List String} {xs : List Json}

theorem mapM_eq_some_iff {f : String → Option Json} :
    names.mapM f = some xs ↔ List.Forall₂ (fun name x => f name = some x) names xs := by
  induction names generalizing xs with
  | nil => simp [eq_comm]
  | cons name names ih => cases xs <;> simp [Option.bind_eq_some_iff, ih]

theorem member?_eq_some_iff {members : List (String × Json)} {name : String} {x : Json} :
    member? members name = some x ↔ HasMember members name x := by
  rw [member?]
  constructor
  · intro h
    split at h
    · rename_i key v hone
      obtain ⟨before, after, rfl, hbefore, hkey, hafter⟩ := List.filter_eq_cons_iff.mp hone
      obtain rfl : key = name := by simpa using hkey
      obtain rfl := Option.some.inj h
      refine ⟨before, after, rfl, List.forall_mem_append.mpr ⟨fun m hm => ?_, fun m hm => ?_⟩⟩
      · simpa using hbefore m hm
      · simpa using List.filter_eq_nil_iff.mp hafter m hm
    · cases h
  · rintro ⟨before, after, rfl, hother⟩
    obtain ⟨hbefore, hafter⟩ := List.forall_mem_append.mp hother
    have hnone {ms : List (String × Json)} (hms : ∀ m ∈ ms, m.1 ≠ name) :
        ms.filter (·.1 == name) = [] := List.filter_eq_nil_iff.mpr fun m hm => by simpa using hms m hm
    simp [List.filter_append, hnone hbefore, hnone hafter]

theorem fields?_object {members : List (String × Json)} :
    (object members).fields? names = some xs ↔ List.Forall₂ (HasMember members) names xs := by
  simp only [fields?, mapM_eq_some_iff, member?_eq_some_iff]

theorem fields?_eq_some_iff {v : Json} : v.fields? names = some xs ↔ v.Holds names xs := by
  constructor
  · intro h
    cases v with
    | object members => exact .object (fields?_object.mp h)
    | array items =>
      obtain ⟨hlen, rfl⟩ : items.length = names.length ∧ items = xs := by simpa [fields?] using h
      exact .array hlen
    | _ => cases h
  · rintro (h | h)
    · exact fields?_object.mpr h
    · simp [fields?, h]

end Json

namespace Guarantees

theorem decode_eq_some_iff {v : Json} {g : Guarantees} : decode v = some g ↔
    ∃ n : Nat, v.Holds ["bits"] [.int n] ∧ n ≤ 65535 ∧ g.bits = n &&& 0x4555 := by
  rw [decode]
  constructor
  · intro h
    split at h
    · rename_i i hfields
      obtain ⟨hi, h⟩ := Option.ite_none_right_eq_some.mp h
      obtain ⟨n, rfl⟩ := Int.eq_ofNat_of_zero_le hi.1
      obtain rfl := Option.some.inj h
      exact ⟨n, Json.fields?_eq_some_iff.mp hfields, by omega, bits_ofBits n⟩
    · cases h
  · rintro ⟨n, hv, hn, hg⟩
    have hle : (n : Int) ≤ 65535 := by omega
    have hread : ofBits n = g := by rw [← ofBits_bits (ofBits n), bits_ofBits, ← hg, ofBits_bits]
    simp [Json.fields?_eq_some_iff.mpr hv, hle, hread]

theorem decode_encode (g : Guarantees) : decode g.encode = some g := by
  have hbits : g.bits = g.bits &&& 0x4555 := by rw [← bits_ofBits, ofBits_bits]
  have hle : g.bits ≤ 0x4555 := hbits ▸ Nat.and_le_right
  exact decode_eq_some_iff.mpr ⟨g.bits, Json.fields?_eq_some_iff.mp rfl, by omega, hbits⟩

end Guarantees

namespace Range

variable {w : Width} {v : Json}

theorem decode_eq_iff {answer : Except (Option Error) Range} (ha : answer ≠ .error none) :
    decode w v = answer ↔ ∃ lower upper pending,
      v.Holds fieldNames [.int lower, .int upper, .bool pending] ∧ w.Fits lower ∧ w.Fits upper ∧
        (ofBounds w lower upper pending).mapError some = answer := by
  rw [decode]
  constructor
  · intro h
    split at h
    · rename_i lower upper pending hfields
      split at h
      · rename_i hfits
        exact ⟨lower, upper, pending, Json.fields?_eq_some_iff.mp hfields, hfits.1, hfits.2, h⟩
      · exact absurd h.symm ha
    · exact absurd h.symm ha
  · rintro ⟨lower, upper, pending, hv, hl, hu, hanswer⟩
    simp [Json.fields?_eq_some_iff.mpr hv, hl, hu, hanswer]

theorem decode_eq_ok_iff : decode w v = .ok r ↔ ∃ lower upper pending,
    v.Holds fieldNames [.int lower, .int upper, .bool pending] ∧ w.Fits lower ∧ w.Fits upper ∧
      ofBounds w lower upper pending = .ok r := by
  simp only [decode_eq_iff (by simp : (.ok r : Except (Option Error) Range) ≠ _), mapError_eq_ok_iff]

theorem decode_eq_error_iff {e : Error} : decode w v = .error (some e) ↔ ∃ lower upper pending,
    v.Holds fieldNames [.int lower, .int upper, .bool pending] ∧ w.Fits lower ∧ w.Fits upper ∧
      ofBounds w lower upper pending = .error e := by
  simp only [decode_eq_iff (by simp : (.error (some e) : Except (Option Error) Range) ≠ _),
    mapError_eq_error_iff, Option.some.injEq, exists_eq_right']

theorem width_of_decode (h : decode w v = .ok r) : r.width = w := by
  obtain ⟨lower, upper, pending, -, -, -, hok⟩ := decode_eq_ok_iff.mp h
  rw [(ofBounds_eq_ok_iff.mp hok).1]

end Range

/-- Decoders read exactly the valid stored forms, and what they read has a stored form that reads back the
same. A range of either width is read from an object that has each of its three fields once, or from an array of
their values, if the bounds are integers of the width and the checks of a new range accept them, and it is the
range that those make; their refusal is the only other answer with a reason. So no range is read whose
cursor lies beyond its bound or which holds more integers than the width allows. A set of guarantees is read
from a code of 16 bits, of which the bits that stand for no guarantee are dropped. -/
theorem decoders_exact (v : Json) :
    (∀ w,
      (∀ r, Range.decode w v = .ok r ↔ ∃ lower upper pending,
        v.Holds ["from", "up_to", "last_pending"] [.int lower, .int upper, .bool pending] ∧
          w.Fits lower ∧ w.Fits upper ∧ Range.ofBounds w lower upper pending = .ok r) ∧
      (∀ e, Range.decode w v = .error (some e) ↔ ∃ lower upper pending,
        v.Holds ["from", "up_to", "last_pending"] [.int lower, .int upper, .bool pending] ∧
          w.Fits lower ∧ w.Fits upper ∧ Range.ofBounds w lower upper pending = .error e) ∧
      ∀ r, Range.decode w v = .ok r → r.width = w ∧ r.cursor ≤ r.bound ∧
        (w = .word64 → r.values.length ≤ 9223372036854775807) ∧ Range.decode w r.encode = .ok r) ∧
    (∀ g, Guarantees.decode v = some g ↔
      ∃ n : Nat, v.Holds ["bits"] [.int n] ∧ n ≤ 65535 ∧ g.bits = n &&& 0x4555) ∧
    ∀ g, Guarantees.decode v = some g → Guarantees.decode g.encode = some g := by
  refine ⟨fun w => ⟨fun r => Range.decode_eq_ok_iff, fun e => Range.decode_eq_error_iff, fun r hr => ?_⟩,
    fun g => Guarantees.decode_eq_some_iff, fun g _ => g.decode_encode⟩
  have hw := Range.WellFormed.decode hr
  obtain rfl := Range.width_of_decode hr
  exact ⟨rfl, hw.cursor_le_bound, fun h64 => hw.count_le _ (by rw [h64]; rfl), Range.decode_encode_iff.mpr hw⟩

/-- The largest range of 64 bits among other members and out of order, and with one integer more; then bounds of
which one is given twice, and a code with every bit set. -/
theorem decoders_exact_mixed :
    let v : Json := .object [("note", .null), ("up_to", .int 9223372036854775807), ("from", .int 1),
      ("last_pending", .bool true)]
    let r : Range := ⟨.word64, 1, 9223372036854775807, true⟩
    v.Holds ["from", "up_to", "last_pending"] [.int 1, .int 9223372036854775807, .bool true] ∧
      Range.decode .word64 v = .ok r ∧ Range.decode .word64 r.encode = .ok r ∧
      Range.decode .word64 (.array [.int 0, .int 9223372036854775807, .bool true]) =
        .error (some (.oversized 0 9223372036854775807)) ∧
      Range.decode .word32 (.object [("from", .int 0), ("from", .int 2), ("up_to", .int 3),
        ("last_pending", .bool false)]) = .error none ∧
      ∃ g, Guarantees.decode (.array [.int 65535]) = some g ∧ g.bits = 17749 ∧
        Guarantees.decode g.encode = some g := by
  intro v r
  have hv : v.Holds ["from", "up_to", "last_pending"] [.int 1, .int 9223372036854775807, .bool true] :=
    Json.fields?_eq_some_iff.mp rfl
  have hr := ((decoders_exact v).1 .word64).1 r |>.mpr
    ⟨1, 9223372036854775807, true, hv, by decide, by decide, rfl⟩
  have hrefused := ((decoders_exact (.array [.int 0, .int 9223372036854775807, .bool true])).1 .word64).2.1
    (.oversized 0 9223372036854775807) |>.mpr
      ⟨0, 9223372036854775807, true, .array rfl, by decide, by decide, rfl⟩
  obtain ⟨-, hset, hback⟩ := decoders_exact (.array [.int 65535])
  have hg := (hset .full).mpr ⟨65535, .array rfl, by decide, by decide⟩
  exact ⟨hv, hr, (((decoders_exact v).1 .word64).2.2 r hr).2.2.2, hrefused, rfl, .full, hg, by decide, hback _ hg⟩

end SplitTraversal
