/-!
# Faults — why a message could not be read or written

Every operation that can fail does so for one of three causes: the
bytes or the room ran out, a value broke a rule of the format, or no
message has the type the bytes announce. A status is a fault or its
absence, as an operator sees it. All wording is kept here.
-/

namespace TradeWire

/-- **Why an operation failed.** -/
inductive Fault where
  /-- The bytes, or the room for them, end too early. -/
  | shortBuffer
  /-- A value breaks a rule of the format. -/
  | badValue
  /-- The type announced is that of no message. -/
  | unknownType
  deriving DecidableEq, Repr

namespace Fault

/-- The fault in one word, for logs and counters. -/
def label : Fault → String
  | shortBuffer => "short_buffer"
  | badValue => "bad_value"
  | unknownType => "unknown_type"

/-- The fault as a sentence. -/
def description : Fault → String
  | shortBuffer => "buffer too small for the current field or group"
  | badValue => "value violates a domain constraint"
  | unknownType => "unknown message type"

/-- Whether more bytes can cure the fault. Only a lack of bytes is
cured so: the other verdicts are final. -/
def recoverable : Fault → Bool
  | shortBuffer => true
  | badValue | unknownType => false

end Fault

/-- **How an operation ended:** well, or with a fault. -/
inductive Status where
  | ok
  | failed (fault : Fault)
  deriving DecidableEq, Repr

namespace Status

variable {α : Type}

/-- The status of a result, its value forgotten. -/
def ofResult : Except Fault α → Status
  | .ok _ => ok
  | .error fault => failed fault

/-- The status in one word. -/
def label : Status → String
  | ok => "ok"
  | failed fault => fault.label

/-- Whether the operation ended well. -/
def isOk : Status → Bool
  | ok => true
  | failed _ => false

/-- The fault behind a status, if there is one. -/
def fault? : Status → Option Fault
  | ok => none
  | failed fault => some fault

end Status

end TradeWire
