import Mathlib.Algebra.BigOperators.Ring.Finset
import TradeWire.Proofs.Positions
/-!
# Weights — what each byte of a word counts for

Every number on the wire is a word of one, two, four or eight bytes, and
the two byte orders are two ways to weigh them. In little-endian order
the byte at place `i` counts for `256 ^ i` (`load_little_eq_sum`); in
big-endian order the places are counted from the other end. So a word is
its two halves, one of them weighed by the power of two that the other
stays below, and the order says which (`load_little_append`,
`load_big_append`).

Loading and storing are inverse on the numbers of a width, and the words
of the width are read and written by nothing else.
-/

namespace TradeWire

-- Powers are those of `Nat` itself, whatever algebra is in scope.
attribute [local instance (high)] instPowNat

/-! ## Weights -/

namespace ByteOrder

/-- **The byte at place `i` counts for `256 ^ i`,** in little-endian
order. -/
theorem load_little_eq_sum (bytes : Bytes) :
    little.load bytes = ∑ i ∈ Finset.range bytes.length, (bytes.getD i 0).toNat * 256 ^ i := by
  induction bytes with
  | nil => rfl
  | cons byte bytes ih =>
    have hrest : ∀ i, ((byte :: bytes).getD (i + 1) 0).toNat * 256 ^ (i + 1) =
        256 * ((bytes.getD i 0).toNat * 256 ^ i) := by
      intro i
      rw [List.getD_cons_succ, Nat.pow_succ, Nat.mul_comm _ 256, Nat.mul_left_comm]
    have hfirst : ((byte :: bytes).getD 0 0).toNat * 256 ^ 0 = byte.toNat := Nat.mul_one _
    rw [load_little_cons, ih, List.length_cons, Finset.sum_range_succ', hfirst]
    simp only [hrest]
    rw [← Finset.mul_sum, Nat.add_comm]

/-- Bytes further on weigh less, in big-endian order. -/
theorem load_big_append (bytes more : Bytes) :
    big.load (bytes ++ more) = 256 ^ more.length * big.load bytes + big.load more := by
  rw [load_big, List.reverse_append, load_little_append, List.length_reverse, ← load_big,
    ← load_big, Nat.add_comm]

end ByteOrder

/-! ## Words and their halves -/

namespace Width

/-- The width of half a word, if that is one of whole bytes. -/
def half? : Width → Option Width
  | w8 => none
  | w16 => some w8
  | w32 => some w16
  | w64 => some w32

variable {w half : Width}

/-- Half of a word has half of its bits, and so of its bytes. -/
theorem bits_of_half? (h : w.half? = some half) :
    half.bits = w.bits / 2 ∧ w.octets = half.octets + half.octets := by
  cases w with
  | w8 => cases h
  | w16 | w32 | w64 =>
    obtain rfl := Option.some.inj h
    exact ⟨rfl, rfl⟩

/-- A word is stored as the digits of its number. -/
theorem bytes_eq_store (w : Width) (order : ByteOrder) (value : w.Word) :
    Field.bytes order value = (order.store w.octets (w.toNat value)).toList := by
  cases w <;> rfl

/-- And it is read as the number that its bytes denote. -/
theorem toNat_decode (w : Width) (order : ByteOrder) (octets : Octets (Field.size w.Word)) :
    w.toNat (Field.decode order octets) = order.load octets.toList := by
  rw [← w.load_bytes order, Field.bytes, Field.encode_decode]

end Width

/-! ## One positional code -/

open ByteOrder in
/-- **Loading and storing are inverse positional codes,** in either order
and at every width. A number of the width is loaded from the bytes it was
stored in; any bytes of the width denote a number of it, and are what it
is stored in. Little-endian order weighs the byte at place `i` by
`256 ^ i`, and big-endian order reads the bytes as little-endian order
reads their reverse. A word is its two halves, read in the same order as
words of half the width, where the first weighs more in big-endian order
and the second in little-endian order. Words are read and written so. -/
theorem words_positional (w : Width) :
    (∀ (order : ByteOrder) (value : Nat), value < 2 ^ w.bits →
      order.load (order.store w.octets value).toList = value) ∧
    (∀ (order : ByteOrder) (octets : Octets w.octets),
      order.load octets.toList < 2 ^ w.bits ∧
      order.store w.octets (order.load octets.toList) = octets) ∧
    (∀ octets : Octets w.octets,
      little.load octets.toList =
        ∑ i ∈ Finset.range w.octets, (octets.toList.getD i 0).toNat * 256 ^ i ∧
      big.load octets.toList = little.load octets.toList.reverse) ∧
    (∀ half : Width, w.half? = some half → ∀ octets : Octets w.octets,
      let first := octets.toList.take half.octets
      let second := octets.toList.drop half.octets
      first.length = half.octets ∧ second.length = half.octets ∧ half.bits = w.bits / 2 ∧
      big.load octets.toList = 2 ^ (w.bits / 2) * big.load first + big.load second ∧
      little.load octets.toList = little.load first + 2 ^ (w.bits / 2) * little.load second) ∧
    (∀ (order : ByteOrder) (value : w.Word),
      Field.bytes order value = (order.store w.octets (w.toNat value)).toList) ∧
    ∀ (order : ByteOrder) (octets : Octets (Field.size w.Word)),
      w.toNat (Field.decode order octets) = order.load octets.toList := by
  refine ⟨fun order value hlt => ?_, fun order octets => ⟨?_, order.store_load octets⟩,
    fun octets => ⟨?_, load_big _⟩, fun half hhalf octets => ?_,
    w.bytes_eq_store, w.toNat_decode⟩
  · rw [order.load_store, Nat.mod_eq_of_lt]
    rwa [← w.two_pow_bits]
  · have hload := order.load_lt octets.toList
    rwa [octets.length_toList, ← w.two_pow_bits] at hload
  · have hsum := load_little_eq_sum octets.toList
    rwa [octets.length_toList] at hsum
  · intro first second
    obtain ⟨hbits, hoctets⟩ := Width.bits_of_half? hhalf
    have hlength := octets.length_toList
    have hfirst : first.length = half.octets := List.length_take_of_le (by omega)
    have hsecond : second.length = half.octets := by
      rw [List.length_drop]
      omega
    have hwhole : octets.toList = first ++ second := (List.take_append_drop _ _).symm
    have hweight : 256 ^ half.octets = 2 ^ (w.bits / 2) := by
      rw [← hbits, half.two_pow_bits]
    refine ⟨hfirst, hsecond, hbits, ?_, ?_⟩
    · rw [hwhole, load_big_append, hsecond, hweight]
    · rw [hwhole, load_little_append, hfirst, hweight]

theorem words_positional_fourBytes :
    ByteOrder.little.load [1, 2, 3, 0xFF] = 0xFF030201 ∧
    ByteOrder.big.load [1, 2, 3, 0xFF] =
      2 ^ 16 * ByteOrder.big.load [1, 2] + ByteOrder.big.load [3, 0xFF] ∧
    ByteOrder.big.load (ByteOrder.big.store 4 0xFF030201).toList = 0xFF030201 := by
  obtain ⟨hstored, -, -, hhalves, -⟩ := words_positional .w32
  obtain ⟨-, -, -, hbig, -⟩ := hhalves .w16 rfl ⟨[1, 2, 3, 0xFF], rfl⟩
  exact ⟨rfl, hbig, hstored .big 0xFF030201 (by decide)⟩

end TradeWire
