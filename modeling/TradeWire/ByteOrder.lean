import TradeWire.Octets
/-!
# Byte order — numbers as positional codes in base 256

A number is stored in `n` bytes as its `n` last digits in base 256, the
least significant one first or last. Each order has a recursion of its
own, and `load_big` ties them: one reads a byte string as the other
reads its reverse. Loading what was stored gives back the digits that
fit (`load_store`), and storing what was loaded gives back the bytes
(`store_load`).
-/

namespace TradeWire

-- Powers are those of `Nat` itself, whatever algebra is in scope.
attribute [local instance (high)] instPowNat

/-- **Which end of a number comes first.** -/
inductive ByteOrder where
  /-- The least significant byte comes first. -/
  | little
  /-- The most significant byte comes first. -/
  | big
  deriving DecidableEq, Repr

namespace ByteOrder

/-! ## Digits -/

/-- The `n` last digits of a number in base 256, least significant
first. -/
def ascending : Nat → Nat → Bytes
  | 0, _ => []
  | n + 1, value => UInt8.ofNat value :: ascending n (value / 256)

/-- The `n` last digits of a number in base 256, most significant
first. -/
def descending : Nat → Nat → Bytes
  | 0, _ => []
  | n + 1, value => UInt8.ofNat (value / 256 ^ n) :: descending n value

@[simp] theorem length_ascending (n value : Nat) : (ascending n value).length = n := by
  induction n generalizing value with
  | zero => rfl
  | succ n ih => simp [ascending, ih]

@[simp] theorem length_descending (n value : Nat) : (descending n value).length = n := by
  induction n with
  | zero => rfl
  | succ n ih => simp [descending, ih]

/-! ## Loading and storing -/

/-- The number that a byte string denotes. -/
def load : ByteOrder → Bytes → Nat
  | little, bytes => bytes.foldr (fun byte rest => byte.toNat + 256 * rest) 0
  | big, bytes => bytes.foldl (fun before byte => 256 * before + byte.toNat) 0

/-- A number in `n` bytes; digits beyond them are dropped. -/
def store : ByteOrder → (n : Nat) → Nat → Octets n
  | little, n, value => ⟨ascending n value, length_ascending n value⟩
  | big, n, value => ⟨descending n value, length_descending n value⟩

@[simp] theorem toList_store_little (n value : Nat) :
    (little.store n value).toList = ascending n value := rfl

@[simp] theorem toList_store_big (n value : Nat) :
    (big.store n value).toList = descending n value := rfl

/-! ## One is the inverse of the other -/

theorem load_little_cons (byte : UInt8) (bytes : Bytes) :
    little.load (byte :: bytes) = byte.toNat + 256 * little.load bytes := rfl

/-- One order reads a byte string as the other reads its reverse. -/
theorem load_big (bytes : Bytes) : big.load bytes = little.load bytes.reverse := by
  simp only [load, List.foldr_reverse]
  congr 1
  funext before byte
  exact Nat.add_comm _ _

/-- Bytes further on weigh more, in little-endian order. -/
theorem load_little_append (bytes more : Bytes) :
    little.load (bytes ++ more) = little.load bytes + 256 ^ bytes.length * little.load more := by
  induction bytes with
  | nil => simp [load]
  | cons byte bytes ih =>
    rw [List.cons_append, load_little_cons, load_little_cons, ih, List.length_cons, Nat.pow_succ,
      Nat.mul_add, Nat.add_assoc, Nat.mul_comm _ 256, Nat.mul_assoc]

/-- A byte string of length `n` denotes a number below `256 ^ n`. -/
theorem load_lt (order : ByteOrder) (bytes : Bytes) : order.load bytes < 256 ^ bytes.length := by
  have little_lt : ∀ bytes : Bytes, little.load bytes < 256 ^ bytes.length := by
    intro bytes
    induction bytes with
    | nil => decide
    | cons byte bytes ih =>
      have := byte.toNat_lt
      rw [load_little_cons, List.length_cons, Nat.pow_succ]
      omega
  cases order with
  | little => exact little_lt bytes
  | big => rw [load_big, ← List.length_reverse]; exact little_lt bytes.reverse

/-- The digits beyond the first `n` are those of the quotient. -/
theorem ascending_append (n m value : Nat) :
    ascending (n + m) value = ascending n value ++ ascending m (value / 256 ^ n) := by
  induction n generalizing value with
  | zero => simp [ascending]
  | succ n ih =>
    rw [Nat.succ_add, ascending, ih, ascending, List.cons_append, Nat.div_div_eq_div_mul,
      Nat.pow_succ, Nat.mul_comm 256]

/-- The digits in one order are those of the other in reverse. -/
theorem descending_eq_reverse (n value : Nat) : descending n value = (ascending n value).reverse := by
  induction n with
  | zero => rfl
  | succ n ih =>
    rw [descending, ih, ascending_append n 1, List.reverse_append]
    rfl

theorem load_ascending (n value : Nat) : little.load (ascending n value) = value % 256 ^ n := by
  induction n generalizing value with
  | zero => simp [load, ascending, Nat.mod_one]
  | succ n ih =>
    rw [ascending, load_little_cons, ih, Nat.pow_succ, Nat.mul_comm _ 256, Nat.mod_mul]
    rfl

theorem ascending_load (bytes : Bytes) : ascending bytes.length (little.load bytes) = bytes := by
  induction bytes with
  | nil => rfl
  | cons byte bytes ih =>
    have hlt := byte.toNat_lt
    have hrest : (byte.toNat + 256 * little.load bytes) / 256 = little.load bytes := by omega
    have hfirst : UInt8.ofNat (byte.toNat + 256 * little.load bytes) = byte := by
      apply UInt8.toNat_inj.1
      rw [UInt8.toNat_ofNat']
      omega
    rw [List.length_cons, ascending, load_little_cons, hrest, hfirst, ih]

/-- Loading gives back the digits that were kept. -/
theorem load_store (order : ByteOrder) (n value : Nat) :
    order.load (order.store n value).toList = value % 256 ^ n := by
  cases order with
  | little => exact load_ascending n value
  | big =>
    rw [load_big, toList_store_big, descending_eq_reverse, List.reverse_reverse]
    exact load_ascending n value

/-- Storing gives back the bytes. -/
theorem store_load (order : ByteOrder) {n : Nat} (octets : Octets n) :
    order.store n (order.load octets.toList) = octets := by
  obtain ⟨bytes, rfl⟩ := octets
  apply Octets.ext
  cases order with
  | little => exact ascending_load bytes
  | big =>
    have h := ascending_load bytes.reverse
    rw [List.length_reverse] at h
    rw [toList_store_big, load_big, descending_eq_reverse, h, List.reverse_reverse]

end ByteOrder

end TradeWire
