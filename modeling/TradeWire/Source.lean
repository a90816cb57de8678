import TradeWire.Fault
import TradeWire.ByteOrder
/-!
# Sources — reading bytes at a moving position

A source is a byte string and a position in it. Reading either gives
exactly the bytes asked for and moves behind them, or fails for want of
bytes and moves nothing. Its numbers are in one byte order, which its
type names.
-/

namespace TradeWire

/-- **Bytes being read.** -/
structure Source (order : ByteOrder) where
  /-- All the bytes, those already read included. -/
  bytes : Bytes
  /-- How many bytes have been read. -/
  pos : Nat
  deriving DecidableEq

namespace Source

variable {order : ByteOrder} {n : Nat}

/-- A source at its first byte. -/
def ofBytes (bytes : Bytes) : Source order := ⟨bytes, 0⟩

/-- How many bytes are left. -/
def remaining (s : Source order) : Nat := s.bytes.length - s.pos

/-- The next `n` bytes, the position unmoved. -/
def peek (s : Source order) (n : Nat) : Except Fault (Octets n) :=
  if h : n ≤ s.remaining then
    .ok ⟨(s.bytes.drop s.pos).take n, by
      rw [List.length_take, List.length_drop]; exact Nat.min_eq_left h⟩
  else .error .shortBuffer

/-- Where there are bytes enough, looking ahead shows them. -/
theorem peek_of_le {s : Source order} {octets : Octets n} (h : n ≤ s.remaining)
    (hbytes : octets.toList = (s.bytes.drop s.pos).take n) : s.peek n = .ok octets := by
  unfold peek
  rw [dif_pos h]
  exact congrArg Except.ok (Octets.ext hbytes.symm)

/-- Bytes that are there can be seen. -/
theorem exists_peek (s : Source order) (h : n ≤ s.remaining) :
    ∃ octets : Octets n, octets.toList = (s.bytes.drop s.pos).take n ∧ s.peek n = .ok octets := by
  have hlen : ((s.bytes.drop s.pos).take n).length = n := by
    rw [List.length_take, List.length_drop]
    exact Nat.min_eq_left h
  exact ⟨⟨_, hlen⟩, rfl, peek_of_le h rfl⟩

/-- Looking ahead fails for want of bytes only. -/
theorem peek_eq_error_iff (s : Source order) (n : Nat) (fault : Fault) :
    s.peek n = .error fault ↔ fault = .shortBuffer ∧ s.remaining < n := by
  unfold peek
  split
  · next h => simp [Nat.not_lt.2 h]
  · next h => simp [Nat.lt_of_not_le h, eq_comm]

/-- What is seen ahead is what stands there. -/
theorem toList_of_peek {s : Source order} {octets : Octets n}
    (h : s.peek n = .ok octets) : octets.toList = (s.bytes.drop s.pos).take n := by
  unfold peek at h
  split at h
  · cases h
    rfl
  · cases h

/-- What can be seen ahead is there. -/
theorem le_remaining_of_peek {s : Source order} {octets : Octets n} (h : s.peek n = .ok octets) :
    n ≤ s.remaining := by
  unfold peek at h
  split at h
  · next hle => exact hle
  · cases h

/-- The source `n` bytes further on. -/
def advance (s : Source order) (n : Nat) : Source order := { s with pos := s.pos + n }

theorem remaining_advance (s : Source order) (n : Nat) :
    (s.advance n).remaining = s.remaining - n := Nat.sub_add_eq _ _ _

theorem advance_advance (s : Source order) (n m : Nat) :
    (s.advance n).advance m = s.advance (n + m) := by
  unfold advance
  rw [Nat.add_assoc]

/-- Takes the next `n` bytes. -/
def take (s : Source order) (n : Nat) : Except Fault (Octets n) × Source order :=
  match s.peek n with
  | .ok octets => (.ok octets, s.advance n)
  | .error fault => (.error fault, s)

/-- Passes over the next `n` bytes. -/
def skip (s : Source order) (n : Nat) : Except Fault Unit × Source order :=
  if n ≤ s.remaining then (.ok (), s.advance n) else (.error .shortBuffer, s)

end Source

end TradeWire
