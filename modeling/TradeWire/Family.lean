import TradeWire.OrderEntry.Kind
import TradeWire.Feed.Kind
/-!
# Families — messages that share a stream

A stream carries messages of one family. The family fixes the byte
order, says where a message shows its type, and how far to step over a
message whose type is none of the family's.
-/

namespace TradeWire

/-- **The two families of messages.** -/
inductive Family where
  | orderEntry
  | feed
  deriving DecidableEq, Repr

namespace Family

/-- The byte order of a family's numbers. -/
def order : Family → ByteOrder
  | orderEntry => .little
  | feed => .big

/-- The kinds of message a family has. -/
def Kind : Family → Type
  | orderEntry => OrderEntry.Kind
  | feed => Feed.Kind

instance : (f : Family) → DecidableEq f.Kind
  | orderEntry => inferInstanceAs (DecidableEq OrderEntry.Kind)
  | feed => inferInstanceAs (DecidableEq Feed.Kind)

/-- Every kind of a family. -/
def kinds : (f : Family) → List f.Kind
  | orderEntry => OrderEntry.Kind.all
  | feed => Feed.Kind.all

/-- The records of a kind. -/
def Record : (f : Family) → f.Kind → Type
  | orderEntry, k => OrderEntry.Kind.Record k
  | feed, k => Feed.Kind.Record k

instance decEqRecord : (f : Family) → (k : f.Kind) → DecidableEq (f.Record k)
  | orderEntry, k => OrderEntry.Kind.decEqRecord k
  | feed, k => Feed.Kind.decEqRecord k

instance message : (f : Family) → (k : f.Kind) → Message f.order (f.Record k)
  | orderEntry, k => OrderEntry.Kind.message k
  | feed, k => Feed.Kind.message k

/-! ## Telling messages apart -/

/-- The byte that announces a kind. -/
def typeOf (f : Family) (k : f.Kind) : UInt8 := Message.type (f.Record k)

/-- What a kind is called. -/
def nameOf (f : Family) (k : f.Kind) : String := Message.name (f.Record k)

/-- The kind a byte announces, if any. -/
def kindOf? (f : Family) (type : UInt8) : Option f.Kind :=
  f.kinds.find? fun k => f.typeOf k = type

/-- Reads no further than the type of the message that begins here. -/
def peekType : (f : Family) → Decoder f.order UInt8
  | orderEntry => OrderEntry.peekType
  | feed => Feed.peekType

/-- Reads a message of a kind. -/
def decode (f : Family) (k : f.Kind) (bytes : Bytes) : Except Fault (f.Record k × Nat) :=
  Message.decode bytes

/-- How far to step over a message of no known kind. An order-entry
message says so itself; in the feed the length of such a message cannot
be known, and the step is one byte. -/
def unknownSize : Family → Bytes → Nat
  | orderEntry, bytes => OrderEntry.declaredSize bytes
  | feed, _ => Feed.tagSize

theorem unknownSize_pos (f : Family) (bytes : Bytes) : 0 < f.unknownSize bytes := by
  cases f
  · exact Nat.lt_of_lt_of_le (by decide : 0 < OrderEntry.markerSize) (Nat.le_add_right _ _)
  · exact (by decide : 0 < Feed.tagSize)

/-- Every message starts with bytes to take: the marker of an order-entry
message, or the tag of the feed. -/
theorem refill_eq_take (f : Family) (k : f.Kind) (r : f.Record k) :
    ∃ n next, 0 < n ∧ Message.refill r = Decoder.take n next := by
  cases f <;> cases k <;> exact ⟨_, _, Nat.succ_pos _, rfl⟩

/-- No message is empty. -/
theorem decode_pos {f : Family} {k : f.Kind} {bytes : Bytes} {record : f.Record k} {n : Nat}
    (h : f.decode k bytes = .ok (record, n)) : 0 < n := by
  obtain ⟨m, next, hm, hnext⟩ := f.refill_eq_take k Message.blank
  unfold decode Message.decode Message.decodeInto at h
  rw [hnext] at h
  exact Nat.lt_of_lt_of_le hm (Decoder.le_of_decode_take h)

end Family

end TradeWire
