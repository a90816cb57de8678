import TradeWire.ByteOrder
/-!
# Fields — values of a fixed size on the wire

A type is a field when each of its values takes the same number of
bytes and is read back from any byte string of that size: words of one
to eight bytes, in either byte order, and byte strings, which no order
touches.
-/

namespace TradeWire

-- Powers are those of `Nat` itself, whatever algebra is in scope.
attribute [local instance (high)] instPowNat

/-- **A type of values of one size on the wire.** Every byte string of
that size is the bytes of exactly one value. -/
class Field (α : Type) where
  /-- How many bytes a value takes. -/
  size : Nat
  /-- The bytes of a value. -/
  encode : ByteOrder → α → Octets size
  /-- The value of these bytes. -/
  decode : ByteOrder → Octets size → α
  decode_encode : ∀ order value, decode order (encode order value) = value
  encode_decode : ∀ order octets, encode order (decode order octets) = octets

namespace Field

attribute [simp] decode_encode encode_decode

/-- A type of words, by the number each stands for. -/
@[reducible] def ofWord {α : Type} (size : Nat) (toNat : α → Nat) (ofNat : Nat → α)
    (ofNat_toNat : ∀ value, ofNat (toNat value) = value)
    (toNat_lt : ∀ value, toNat value < 256 ^ size)
    (toNat_ofNat : ∀ n, n < 256 ^ size → toNat (ofNat n) = n) : Field α where
  size := size
  encode order value := order.store size (toNat value)
  decode order octets := ofNat (order.load octets.toList)
  decode_encode order value := by
    rw [ByteOrder.load_store, Nat.mod_eq_of_lt (toNat_lt value), ofNat_toNat]
  encode_decode order octets := by
    have hlt := order.load_lt octets.toList
    rw [octets.length_toList] at hlt
    rw [toNat_ofNat _ hlt, ByteOrder.store_load]

instance : Field UInt8 :=
  ofWord 1 UInt8.toNat UInt8.ofNat (fun _ => UInt8.ofNat_toNat) UInt8.toNat_lt
    fun _ h => UInt8.toNat_ofNat_of_lt' h

instance : Field UInt16 :=
  ofWord 2 UInt16.toNat UInt16.ofNat (fun _ => UInt16.ofNat_toNat) UInt16.toNat_lt
    fun _ h => UInt16.toNat_ofNat_of_lt' h

instance : Field UInt32 :=
  ofWord 4 UInt32.toNat UInt32.ofNat (fun _ => UInt32.ofNat_toNat) UInt32.toNat_lt
    fun _ h => UInt32.toNat_ofNat_of_lt' h

instance : Field UInt64 :=
  ofWord 8 UInt64.toNat UInt64.ofNat (fun _ => UInt64.ofNat_toNat) UInt64.toNat_lt
    fun _ h => UInt64.toNat_ofNat_of_lt' h

instance (n : Nat) : Field (Octets n) where
  size := n
  encode _ octets := octets
  decode _ octets := octets
  decode_encode _ _ := rfl
  encode_decode _ _ := rfl

@[simp] theorem size_uint8 : size UInt8 = 1 := rfl

@[simp] theorem size_uint16 : size UInt16 = 2 := rfl

@[simp] theorem size_uint32 : size UInt32 = 4 := rfl

@[simp] theorem size_uint64 : size UInt64 = 8 := rfl

@[simp] theorem size_octets (n : Nat) : size (Octets n) = n := rfl

variable {α : Type} [Field α]

/-- The bytes of a value, as they are put on the wire. -/
def bytes (order : ByteOrder) (value : α) : Bytes := (encode order value).toList

@[simp] theorem length_bytes (order : ByteOrder) (value : α) :
    (bytes order value).length = size α := (encode order value).length_toList

/-- Values with the same bytes are the same. -/
theorem bytes_inj {order : ByteOrder} {value other : α} :
    bytes order value = bytes order other ↔ value = other := by
  constructor
  · intro h
    rw [← decode_encode order value, ← decode_encode order other]
    exact congrArg (decode order) (Octets.ext h)
  · rintro rfl
    rfl

/-- A byte is its own bytes, in either order. -/
theorem bytes_uint8 (order : ByteOrder) (value : UInt8) : bytes order value = [value] := by
  have hdigit : UInt8.ofNat value.toNat = value := UInt8.ofNat_toNat
  cases order with
  | little =>
    change [UInt8.ofNat value.toNat] = [value]
    rw [hdigit]
  | big =>
    change [UInt8.ofNat (value.toNat / 256 ^ 0)] = [value]
    rw [Nat.pow_zero, Nat.div_one, hdigit]

end Field

end TradeWire
