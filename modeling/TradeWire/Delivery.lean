import TradeWire.Log
/-!
# Deliveries — one message from the front of the bytes

A delivery reads the type of the first message, decodes a message of
that kind, and hands the record to a listener that wants the kind. The
listener is a set of kinds: whether it wants one decides what it is
handed and nothing else.
-/

namespace TradeWire

namespace Family

variable (f : Family)

/-- **The kinds of message a listener wants.** -/
abbrev Listener : Type := f.Kind → Bool

/-- **A record handed to a listener.** -/
structure Event where
  kind : f.Kind
  record : f.Record kind
  deriving DecidableEq

/-- **All that comes of a delivery.** -/
structure Delivery where
  /-- The bytes consumed, or why none were. -/
  outcome : Except Fault Nat
  /-- What the listener was handed. -/
  events : List f.Event
  /-- What the log was told. -/
  log : List Log.Entry

/-- Delivers a message of a known kind. -/
def deliver (k : f.Kind) (listener : f.Listener) (bytes : Bytes) : f.Delivery :=
  match f.decode k bytes with
  | .ok (record, consumed) => {
      outcome := .ok consumed
      events := if listener k then [⟨k, record⟩] else []
      log := [.dispatched (f.nameOf k) consumed] }
  | .error fault => {
      outcome := .error fault
      events := []
      log := [.decodeFailed (f.nameOf k) fault bytes.length] }

/-- Delivers the message at the front of the bytes, whatever its kind. -/
def dispatch (listener : f.Listener) (bytes : Bytes) : f.Delivery :=
  match f.peekType.decode bytes with
  | .error fault => { outcome := .error fault, events := [], log := [] }
  | .ok (type, _) =>
    match f.kindOf? type with
    | some k => f.deliver k listener bytes
    | none => {
        outcome := .error .unknownType
        events := []
        log := [.unknownType f type bytes.length] }

variable {f}

/-- A delivery that succeeds consumes something. -/
theorem dispatch_outcome_pos {listener : f.Listener} {bytes : Bytes} {n : Nat}
    (h : (f.dispatch listener bytes).outcome = .ok n) : 0 < n := by
  unfold dispatch at h
  split at h
  · cases h
  · split at h
    · next k _ =>
      unfold deliver at h
      split at h
      · next hdecode =>
        cases h
        exact f.decode_pos hdecode
      · cases h
    · cases h

end Family

end TradeWire
