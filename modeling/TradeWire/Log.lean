import TradeWire.Fault
import TradeWire.Family
/-!
# The log — what an operator is told of a delivery

An entry is the fact it reports. Its level, its text and its named
values follow from that, and are what a log shows.
-/

namespace TradeWire

namespace Log

/-- **How loud an entry is.** -/
inductive Level where
  | trace
  | debug
  deriving DecidableEq, Repr

/-- The level in one word. -/
def Level.label : Level → String
  | trace => "TRACE"
  | debug => "DEBUG"

/-- **A named value of an entry.** -/
inductive Value where
  | text (value : String)
  | number (value : Nat)
  deriving DecidableEq, Repr

/-- **What can be reported.** -/
inductive Entry where
  /-- A message was decoded, from so many bytes. -/
  | dispatched (message : String) (consumed : Nat)
  /-- A message of a known type was not decoded from the bytes given. -/
  | decodeFailed (message : String) (fault : Fault) (given : Nat)
  /-- The type at the start of the bytes given is none of the family's. -/
  | unknownType (family : Family) (type : UInt8) (given : Nat)
  deriving DecidableEq, Repr

namespace Entry

/-- A delivery is routine; anything else may be worth a look. -/
def level : Entry → Level
  | dispatched _ _ => .trace
  | decodeFailed _ _ _ | unknownType _ _ _ => .debug

/-- The text of an entry. -/
def text : Entry → String
  | dispatched _ _ => "dispatched"
  | decodeFailed _ _ _ => "decode failed"
  | unknownType .orderEntry _ _ => "unknown order-entry message type"
  | unknownType .feed _ _ => "unknown feed message type"

/-- The named values of an entry. -/
def values : Entry → List (String × Value)
  | dispatched message consumed =>
    [("message", .text message), ("consumed", .number consumed)]
  | decodeFailed message fault given =>
    [("message", .text message), ("status", .text fault.label), ("len", .number given)]
  | unknownType .orderEntry type given =>
    [("message_type", .number type.toNat), ("len", .number given)]
  | unknownType .feed type given => [("tag", .number type.toNat), ("len", .number given)]

end Entry

end Log

end TradeWire
