/-!
Guarantees that a traversable sequence states about the elements it still owes, and sets of them.
A set has a fixed bit code: `ofBits` drops every bit that is no guarantee, so `ofBits ∘ bits` is the identity.
-/

namespace SplitTraversal

inductive Flag
  | distinct | sorted | ordered | sized | nonnull | immutable | subsized
  deriving DecidableEq, Repr

namespace Flag

/-- Every guarantee, in the order in which a set is written out. -/
def all : List Flag := [ordered, distinct, sorted, sized, nonnull, immutable, subsized]

@[simp] theorem mem_all (f : Flag) : f ∈ all := by cases f <;> decide

def name : Flag → String
  | distinct => "DISTINCT"
  | sorted => "SORTED"
  | ordered => "ORDERED"
  | sized => "SIZED"
  | nonnull => "NONNULL"
  | immutable => "IMMUTABLE"
  | subsized => "SUBSIZED"

def bit : Flag → Nat
  | distinct => 0
  | sorted => 2
  | ordered => 4
  | sized => 6
  | nonnull => 8
  | immutable => 10
  | subsized => 14

theorem bit_inj {f g : Flag} : f.bit = g.bit ↔ f = g := by
  cases f <;> cases g <;> decide

end Flag

@[ext] structure Guarantees where
  distinct : Bool
  sorted : Bool
  ordered : Bool
  sized : Bool
  nonnull : Bool
  immutable : Bool
  subsized : Bool
  deriving DecidableEq, Repr

namespace Guarantees

def has (g : Guarantees) : Flag → Bool
  | .distinct => g.distinct
  | .sorted => g.sorted
  | .ordered => g.ordered
  | .sized => g.sized
  | .nonnull => g.nonnull
  | .immutable => g.immutable
  | .subsized => g.subsized

def ofPred (p : Flag → Bool) : Guarantees where
  distinct := p .distinct
  sorted := p .sorted
  ordered := p .ordered
  sized := p .sized
  nonnull := p .nonnull
  immutable := p .immutable
  subsized := p .subsized

@[simp] theorem has_ofPred (p : Flag → Bool) (f : Flag) : (ofPred p).has f = p f := by
  cases f <;> rfl

theorem ext_has {a b : Guarantees} (h : ∀ f, a.has f = b.has f) : a = b :=
  Guarantees.ext (h .distinct) (h .sorted) (h .ordered) (h .sized) (h .nonnull) (h .immutable)
    (h .subsized)

instance : Membership Flag Guarantees := ⟨fun g f => g.has f = true⟩

@[simp] theorem mem_def (g : Guarantees) (f : Flag) : f ∈ g ↔ g.has f = true := Iff.rfl

instance (f : Flag) (g : Guarantees) : Decidable (f ∈ g) :=
  inferInstanceAs (Decidable (g.has f = true))

def ofList (fs : List Flag) : Guarantees := ofPred (fs.contains ·)

@[simp] theorem has_ofList (fs : List Flag) (f : Flag) : (ofList fs).has f = fs.contains f :=
  has_ofPred _ f

instance : EmptyCollection Guarantees := ⟨ofPred fun _ => false⟩

@[simp] theorem has_empty (f : Flag) : (∅ : Guarantees).has f = false := has_ofPred _ f

def full : Guarantees := ofPred fun _ => true

@[simp] theorem has_full (f : Flag) : full.has f = true := has_ofPred _ f

instance : Union Guarantees := ⟨fun a b => ofPred fun f => a.has f || b.has f⟩
instance : Inter Guarantees := ⟨fun a b => ofPred fun f => a.has f && b.has f⟩
instance : SDiff Guarantees := ⟨fun a b => ofPred fun f => a.has f && !b.has f⟩

@[simp] theorem has_union (a b : Guarantees) (f : Flag) : (a ∪ b).has f = (a.has f || b.has f) :=
  has_ofPred _ f
@[simp] theorem has_inter (a b : Guarantees) (f : Flag) : (a ∩ b).has f = (a.has f && b.has f) :=
  has_ofPred _ f
@[simp] theorem has_sdiff (a b : Guarantees) (f : Flag) : (a \ b).has f = (a.has f && !b.has f) :=
  has_ofPred _ f

def complement (g : Guarantees) : Guarantees := ofPred fun f => !g.has f

@[simp] theorem has_complement (g : Guarantees) (f : Flag) : g.complement.has f = !g.has f :=
  has_ofPred _ f

def contains (a b : Guarantees) : Bool := Flag.all.all fun f => !b.has f || a.has f

def intersects (a b : Guarantees) : Bool := Flag.all.any fun f => a.has f && b.has f

def isEmpty (g : Guarantees) : Bool := !Flag.all.any g.has

instance : HasSubset Guarantees := ⟨fun a b => ∀ f, a.has f = true → b.has f = true⟩

theorem contains_iff (a b : Guarantees) : a.contains b = true ↔ b ⊆ a := by
  simp only [contains, List.all_eq_true, Flag.mem_all, true_implies, Bool.or_eq_true,
    Bool.not_eq_true']
  exact forall_congr' fun f => by cases b.has f <;> simp

def bits (g : Guarantees) : Nat :=
  (Flag.all.filter g.has).foldr (fun f n => 1 <<< f.bit ||| n) 0

/-- Reads a bit code; bits that stand for no guarantee are dropped. -/
def ofBits (n : Nat) : Guarantees := ofPred fun f => n.testBit f.bit

@[simp] theorem has_ofBits (n : Nat) (f : Flag) : (ofBits n).has f = n.testBit f.bit :=
  has_ofPred _ f

theorem testBit_bits (g : Guarantees) (i : Nat) :
    g.bits.testBit i = true ↔ ∃ f, g.has f = true ∧ f.bit = i := by
  have key (fs : List Flag) :
      (fs.foldr (fun (f : Flag) n => 1 <<< f.bit ||| n) 0).testBit i = true ↔
        ∃ f ∈ fs, f.bit = i := by
    induction fs with
    | nil => simp
    | cons f fs ih =>
      rw [List.foldr_cons, Nat.testBit_or, Bool.or_eq_true, ih, Nat.one_shiftLeft]
      simp [Nat.testBit_two_pow]
  simp [bits, key]

@[simp] theorem ofBits_bits (g : Guarantees) : ofBits g.bits = g := by
  refine ext_has fun f => ?_
  have h := testBit_bits g f.bit
  simp only [Flag.bit_inj, exists_eq_right] at h
  rw [has_ofBits, Bool.eq_iff_iff, h]

theorem bits_ofBits (n : Nat) : (ofBits n).bits = n &&& 0x4555 := by
  have hmask : full.bits = 0x4555 := by decide
  refine Nat.eq_of_testBit_eq fun i => ?_
  rw [← hmask, Nat.testBit_and, Bool.eq_iff_iff, Bool.and_eq_true, testBit_bits, testBit_bits]
  simp only [has_ofBits, has_full, true_and]
  constructor
  · rintro ⟨f, hf, rfl⟩
    exact ⟨hf, f, rfl⟩
  · rintro ⟨hn, f, rfl⟩
    exact ⟨f, hn, rfl⟩

def describe (g : Guarantees) : String :=
  let members := Flag.all.filter g.has
  if members.isEmpty then "Characteristics(empty)"
  else "Characteristics(" ++ " | ".intercalate (members.map Flag.name) ++ ")"

inductive Change
  | add (g : Guarantees)
  | keep (g : Guarantees)
  | remove (g : Guarantees)
  | complement

def apply (g : Guarantees) : Change → Guarantees
  | .add h => g ∪ h
  | .keep h => g ∩ h
  | .remove h => g \ h
  | .complement => g.complement

def history (g : Guarantees) : List Change → List Guarantees
  | [] => [g]
  | c :: cs => g :: history (g.apply c) cs

end Guarantees

end SplitTraversal
