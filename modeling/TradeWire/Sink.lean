import TradeWire.Fault
import TradeWire.Field
/-!
# Sinks — writing bytes at a moving position

A sink is a buffer of a fixed length and a position in it. Writing
either overwrites as many bytes as it is given and moves behind them, or
fails for want of room and changes nothing. A run of writes stops at the
first that fails, and what went before it stays written.
-/

namespace TradeWire

/-- **A buffer being written.** -/
structure Sink (order : ByteOrder) where
  /-- The whole buffer, written or not. -/
  buffer : Bytes
  /-- How many bytes have been written. -/
  pos : Nat
  deriving DecidableEq

namespace Sink

variable {order : ByteOrder}

/-- A sink at the first byte of a buffer. -/
def ofBuffer (buffer : Bytes) : Sink order := ⟨buffer, 0⟩

/-- How many bytes still fit. -/
def remaining (s : Sink order) : Nat := s.buffer.length - s.pos

/-- Writes the bytes if they all fit. -/
def write (s : Sink order) (bytes : Bytes) : Except Fault Unit × Sink order :=
  if bytes.length ≤ s.remaining then
    (.ok (), {
      buffer := s.buffer.take s.pos ++ bytes ++ s.buffer.drop (s.pos + bytes.length)
      pos := s.pos + bytes.length })
  else (.error .shortBuffer, s)

/-- Writing overwrites: the buffer keeps its length. -/
@[simp] theorem length_buffer_write (s : Sink order) (bytes : Bytes) :
    (s.write bytes).2.buffer.length = s.buffer.length := by
  unfold write
  split
  · next h =>
    unfold remaining at h
    simp only [List.length_append, List.length_take, List.length_drop]
    omega
  · rfl

/-- Writing fails for want of room only. -/
theorem write_eq_error_iff (s : Sink order) (bytes : Bytes) (fault : Fault) :
    (s.write bytes).1 = .error fault ↔ fault = .shortBuffer ∧ s.remaining < bytes.length := by
  unfold write
  split
  · next h => simp [Nat.not_lt.2 h]
  · next h => simp [Nat.lt_of_not_le h, eq_comm]

/-- Writes a value of a fixed size. -/
def put {α : Type} [Field α] (s : Sink order) (value : α) : Except Fault Unit × Sink order :=
  s.write (Field.bytes order value)

/-- Writes byte strings one after another, up to the first that does not
fit. -/
def writeAll (s : Sink order) : List Bytes → Except Fault Unit × Sink order
  | [] => (.ok (), s)
  | bytes :: rest =>
    match s.write bytes with
    | (.ok _, s) => s.writeAll rest
    | (.error fault, s) => (.error fault, s)

end Sink

end TradeWire
