import TradeWire.Delivery
/-!
# Walks — a stream, message by message

A walk delivers the message at an offset and goes on behind it, until
the bytes end or an outcome stops it. What it does with a message of no
known kind is the walk's own choice: stop there, or step over it, which
may lead beyond the bytes. Every step goes forward, since no message is
empty (`stride?_pos`), so a walk ends.
-/

namespace TradeWire

/-- **How to go through a stream.** -/
inductive Walk where
  /-- One delivery, whatever comes of it. -/
  | once
  /-- Up to the first delivery that fails. -/
  | stop
  /-- The same, but over messages of no known kind. -/
  | skipUnknown
  deriving DecidableEq, Repr

namespace Family

variable (f : Family)

/-- **A delivery and where it was made.** -/
structure Step where
  offset : Nat
  delivery : f.Delivery

/-- **The steps of a walk and where it ended.** -/
structure Trace where
  steps : List f.Step
  final : Nat

/-- How far a walk goes on after an outcome on these bytes, if it does. -/
def stride? (w : Walk) (bytes : Bytes) : Except Fault Nat → Option Nat
  | .ok consumed => if w = .once then none else some consumed
  | .error .unknownType => if w = .skipUnknown then some (f.unknownSize bytes) else none
  | .error .shortBuffer | .error .badValue => none

variable {f} in
/-- **A walk that goes on goes forward.** -/
theorem stride?_pos {w : Walk} {listener : f.Listener} {bytes : Bytes} {n : Nat}
    (h : f.stride? w bytes (f.dispatch listener bytes).outcome = some n) : 0 < n := by
  unfold stride? at h
  split at h
  · next hok =>
    split at h
    · cases h
    · cases h
      exact dispatch_outcome_pos hok
  · split at h
    · cases h
      exact f.unknownSize_pos bytes
    · cases h
  · cases h
  · cases h

/-- The walk from an offset to the end of the bytes. -/
def walkFrom (w : Walk) (listener : f.Listener) (bytes : Bytes) (offset : Nat) : f.Trace :=
  if offset < bytes.length then
    let delivery := f.dispatch listener (bytes.drop offset)
    match _h : f.stride? w (bytes.drop offset) delivery.outcome with
    | some n =>
      let rest := walkFrom w listener bytes (offset + n)
      { rest with steps := ⟨offset, delivery⟩ :: rest.steps }
    | none => { steps := [⟨offset, delivery⟩], final := offset }
  else { steps := [], final := offset }
termination_by bytes.length - offset
decreasing_by
  have := stride?_pos _h
  omega

/-- A step that goes on is followed by the walk from where it leads. -/
theorem walkFrom_of_some {w : Walk} {listener : f.Listener} {bytes : Bytes} {offset n : Nat}
    (hlt : offset < bytes.length)
    (h : f.stride? w (bytes.drop offset) (f.dispatch listener (bytes.drop offset)).outcome =
      some n) :
    f.walkFrom w listener bytes offset = {
      steps := ⟨offset, f.dispatch listener (bytes.drop offset)⟩ ::
        (f.walkFrom w listener bytes (offset + n)).steps
      final := (f.walkFrom w listener bytes (offset + n)).final } := by
  rw [walkFrom, if_pos hlt]
  dsimp only
  split
  · next m hm =>
    obtain rfl : n = m := Option.some.inj (h.symm.trans hm)
    rfl
  · next hm => cases h.symm.trans hm

/-- A step that does not go on is the last. -/
theorem walkFrom_of_none {w : Walk} {listener : f.Listener} {bytes : Bytes} {offset : Nat}
    (hlt : offset < bytes.length)
    (h : f.stride? w (bytes.drop offset) (f.dispatch listener (bytes.drop offset)).outcome =
      none) :
    f.walkFrom w listener bytes offset = {
      steps := [⟨offset, f.dispatch listener (bytes.drop offset)⟩], final := offset } := by
  rw [walkFrom, if_pos hlt]
  dsimp only
  split
  · next m hm => cases h.symm.trans hm
  · rfl

/-- Behind the bytes there is no step. -/
theorem walkFrom_of_le {w : Walk} {listener : f.Listener} {bytes : Bytes} {offset : Nat}
    (h : bytes.length ≤ offset) :
    f.walkFrom w listener bytes offset = { steps := [], final := offset } := by
  rw [walkFrom, if_neg (Nat.not_lt.2 h)]

/-- The walk of a byte string. A single delivery is made also where there
are no bytes. -/
def walk (w : Walk) (listener : f.Listener) (bytes : Bytes) : f.Trace :=
  match w with
  | .once => { steps := [⟨0, f.dispatch listener bytes⟩], final := 0 }
  | .stop | .skipUnknown => f.walkFrom w listener bytes 0

end Family

end TradeWire
