import TradeWire.Sink
import TradeWire.Decoder
/-!
# Messages — records as they travel

A type of records is a type of messages when its records can be laid out
as fields on the wire and read back. The two directions are given
separately, and so is the length: nothing here says that they agree.

A record need not come back as it was: a value behind an absent field is
not written, and reads as blank. `canonical` is what does come back. Nor
can every record be written: `Encodable` says which can.
-/

namespace TradeWire

/-- **A type of records that travel in one byte order.** -/
class Message (order : outParam ByteOrder) (M : Type) where
  /-- The byte that announces a message of this type. -/
  type : UInt8
  /-- What the message is called. -/
  name : String
  /-- The record with every field zero and no groups. -/
  blank : M
  /-- The bytes a record takes, counted without writing it. -/
  encodedLen : M → Nat
  /-- The fields of a record in wire order, unless it breaks a rule of
  the format. -/
  fields? : M → Option (List Bytes)
  /-- Reads a message over a record of the same type, field by field. -/
  refill : M → Decoder order M
  /-- The record keeps the rules of the format. -/
  Encodable : M → Prop
  /-- The record with everything blank that its bytes do not show. -/
  canonical : M → M

namespace Message

variable {order : ByteOrder} {M : Type} [Message order M]

/-- Writes a record where a sink stands. All the rules are checked before
the first byte is put, none between two fields, so a record that breaks one
leaves the sink as it was. -/
def write (record : M) (sink : Sink order) : Except Fault Unit × Sink order :=
  match fields? record with
  | some fields => sink.writeAll fields
  | none => (.error .badValue, sink)

/-- Writes a record into a buffer from its first byte: how many bytes it
took, and the whole buffer afterwards. -/
def encode (record : M) (buffer : Bytes) : Except Fault (Nat × Bytes) :=
  match write record (Sink.ofBuffer buffer) with
  | (.ok _, sink) => .ok (sink.pos, sink.buffer)
  | (.error fault, _) => .error fault

/-- The bytes of a record and nothing else. -/
def toBytes (record : M) : Except Fault Bytes :=
  (encode record (List.replicate (encodedLen record) 0)).map Prod.snd

/-- Reads a message from the first byte over a record: the record now,
and how many bytes it took. -/
def decodeInto (record : M) (bytes : Bytes) : Except Fault (M × Nat) :=
  (refill record).decode bytes

/-- Reads a message from the first byte. -/
def decode (bytes : Bytes) : Except Fault (M × Nat) := decodeInto blank bytes

end Message

end TradeWire
