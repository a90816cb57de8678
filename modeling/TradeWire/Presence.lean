import TradeWire.Fault
import TradeWire.Field
/-!
# Presence — which optional fields a message carries

A message with optional fields announces them by a set of indices,
packed into a word of one to eight bytes: index `i` is a member when bit
`i` is set. A set may hold indices its message has no field for; `Within`
is how a message refuses those.
-/

namespace TradeWire

-- Powers and sums are those of `Nat` itself, whatever algebra is in scope.
attribute [local instance (high)] instPowNat Zero.ofOfNat0

/-- **The widths a set can be packed in.** -/
inductive Width where
  | w8
  | w16
  | w32
  | w64
  deriving DecidableEq, Repr

namespace Width

/-- The bytes of the packed word. -/
def octets : Width → Nat
  | w8 => 1
  | w16 => 2
  | w32 => 4
  | w64 => 8

/-- The bits of the packed word, which is how many indices there are. -/
def bits (w : Width) : Nat := 8 * w.octets

/-- A word of the width and a byte string of its size are as many. -/
theorem two_pow_bits (w : Width) : 2 ^ w.bits = 256 ^ w.octets := Nat.pow_mul 2 8 w.octets

end Width

/-- **A set of field indices below the width.** -/
@[ext]
structure Presence (w : Width) where
  /-- The packed word. -/
  bits : BitVec w.bits
  deriving DecidableEq

namespace Presence

variable {w : Width}

/-- No index at all. -/
def empty : Presence w := ⟨0⟩

instance : Inhabited (Presence w) := ⟨empty⟩

/-! ## Members -/

/-- Whether an index is a member; none beyond the width is. -/
def contains (p : Presence w) (i : Nat) : Bool :=
  decide (i < w.bits) && p.bits.getLsbD i

/-- The set with one more index; an index beyond the width has no bit
and changes nothing. -/
def insert (p : Presence w) (i : Nat) : Presence w :=
  ⟨p.bits ||| BitVec.twoPow w.bits i⟩

/-- The set of these indices. -/
def ofList (indices : List Nat) : Presence w := indices.foldl insert empty

/-- The members in ascending order. -/
def toList (p : Presence w) : List Nat :=
  (List.range w.bits).filter p.contains

/-- A bit beyond the width is clear, so membership is the bit. -/
theorem contains_eq_getLsbD (p : Presence w) (i : Nat) : p.contains i = p.bits.getLsbD i := by
  by_cases h : i < w.bits
  · simp [contains, h]
  · simp [contains, h, BitVec.getLsbD_of_ge p.bits i (Nat.le_of_not_lt h)]

@[simp] theorem contains_empty (i : Nat) : (empty : Presence w).contains i = false := by
  simp [contains, empty]

/-- An insertion adds its own index and no other. -/
@[simp] theorem contains_insert (p : Presence w) (i j : Nat) :
    (p.insert i).contains j = (decide (j = i ∧ j < w.bits) || p.contains j) := by
  by_cases h : j < w.bits <;> simp [contains, insert, h, BitVec.getLsbD_twoPow, Bool.or_comm]

@[simp] theorem mem_toList (p : Presence w) (i : Nat) : i ∈ p.toList ↔ p.contains i = true := by
  simp only [toList, List.mem_filter, List.mem_range, and_iff_right_iff_imp]
  intro h
  simp only [contains, Bool.and_eq_true, decide_eq_true_eq] at h
  exact h.1

/-- **A sum over the members** is a sum over the indices below which alone
there is something to add. -/
theorem sum_toList (p : Presence w) {f : Nat → Nat} {n : Nat} (hn : n ≤ w.bits)
    (hf : ∀ i, n ≤ i → f i = 0) :
    (p.toList.map f).sum = ((List.range n).map fun i => if p.contains i then f i else 0).sum := by
  have hfilter : ∀ indices : List Nat, ((indices.filter p.contains).map f).sum =
      (indices.map fun i => if p.contains i then f i else 0).sum := by
    intro indices
    induction indices with
    | nil => rfl
    | cons i indices ih => by_cases h : p.contains i <;> simp [h, ih]
  obtain ⟨m, hm⟩ := Nat.exists_eq_add_of_le hn
  have hzero : ∀ i, (if p.contains (n + i) then f (n + i) else 0) = 0 := by
    intro i
    rw [hf _ (Nat.le_add_right n i), ite_self]
  have hbeyond : ((List.range m).map fun i => if p.contains (n + i) then f (n + i) else 0).sum =
      0 := by
    rw [funext hzero, List.map_const', List.sum_replicate_nat, Nat.mul_zero]
  rw [toList, hfilter, hm, List.range_add, List.map_append, List.sum_append_nat, List.map_map]
  exact Nat.add_left_cancel_iff.2 hbeyond

/-- A set is its members. -/
theorem ext_contains {p q : Presence w} (h : ∀ i, p.contains i = q.contains i) : p = q := by
  apply Presence.ext
  apply BitVec.eq_of_getLsbD_eq
  intro i _
  rw [← contains_eq_getLsbD, ← contains_eq_getLsbD, h]

/-- The set of these indices has them for members, but for those beyond
the width. -/
@[simp] theorem contains_ofList (indices : List Nat) (i : Nat) :
    (ofList indices : Presence w).contains i = decide (i ∈ indices ∧ i < w.bits) := by
  have hfold : ∀ p : Presence w, (indices.foldl insert p).contains i =
      (decide (i ∈ indices ∧ i < w.bits) || p.contains i) := by
    induction indices with
    | nil => intro p; simp
    | cons j indices ih =>
      intro p
      rw [List.foldl_cons, ih, contains_insert]
      by_cases hlt : i < w.bits
      · simp only [hlt, and_true, List.mem_cons, Bool.decide_or, ← Bool.or_assoc]
        rw [Bool.or_comm (decide (i ∈ indices))]
      · simp [hlt]
  rw [ofList, hfold, contains_empty, Bool.or_false]

/-! ## Packed words -/

/-- The set of the low bits of a word; those beyond the width are
dropped. -/
def ofWord (word : UInt64) : Presence w := ⟨word.toBitVec.setWidth w.bits⟩

/-- The packed word, widened. -/
def toWord (p : Presence w) : UInt64 := ⟨p.bits.setWidth 64⟩

instance : Field (Presence w) :=
  Field.ofWord w.octets (fun p => p.bits.toNat) (fun n => ⟨BitVec.ofNat w.bits n⟩)
    (fun p => by simp)
    (fun p => w.two_pow_bits ▸ p.bits.isLt)
    (fun n h => by rw [BitVec.toNat_ofNat, w.two_pow_bits, Nat.mod_eq_of_lt h])

@[simp] theorem size_presence : Field.size (Presence w) = w.octets := rfl

/-! ## Fields a message defines -/

/-- Every member is one of those defined. -/
def Within (p defined : Presence w) : Prop := p.bits &&& ~~~defined.bits = 0

instance (p defined : Presence w) : Decidable (p.Within defined) :=
  inferInstanceAs (Decidable (_ = _))

/-- Which is to say, member by member. -/
theorem within_iff (p defined : Presence w) :
    p.Within defined ↔ ∀ i, p.contains i = true → defined.contains i = true := by
  simp only [contains_eq_getLsbD]
  constructor
  · intro h i hi
    have hbit := congrArg (fun bits => bits.getLsbD i) h
    have hlt := BitVec.lt_of_getLsbD hi
    simpa [hi, hlt] using hbit
  · intro h
    apply BitVec.eq_of_getLsbD_eq
    intro i hlt
    cases hi : p.bits.getLsbD i with
    | false => simp [hi]
    | true => simp [hi, h i hi]

/-- Of fields given by their indices: every member is one of those. -/
theorem within_ofList_iff (p : Presence w) (indices : List Nat) :
    p.Within (ofList indices) ↔ ∀ i, p.contains i = true → i ∈ indices := by
  rw [within_iff]
  constructor
  · intro h i hi
    have hmember := h i hi
    rw [contains_ofList, decide_eq_true_eq] at hmember
    exact hmember.1
  · intro h i hi
    have hlt : i < w.bits := by
      rw [contains, Bool.and_eq_true, decide_eq_true_eq] at hi
      exact hi.1
    rw [contains_ofList, decide_eq_true_eq]
    exact ⟨h i hi, hlt⟩

/-- Refuses a set with a member that is not defined. -/
def checkWithin (p defined : Presence w) : Except Fault Unit :=
  if p.Within defined then .ok () else .error .badValue

end Presence

end TradeWire
