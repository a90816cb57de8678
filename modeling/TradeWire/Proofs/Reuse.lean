import TradeWire.Family
/-!
# Reuse — a record read over another keeps nothing of it

A message is read over a record of its type, field by field, so that one
record serves for many messages. Were a field skipped on some path, what
an earlier message had put there would be taken for this one's. None is:
the decoder itself does not depend on the record it reads over
(`refill_eq_refill`), so neither do its verdict, its record, nor where it
leaves a source when it fails.

A cross is read in two parts, and only together do they replace the whole
record. The head keeps the legs of the record and nothing else of it; the
legs are then replaced by those of the message.
-/

namespace TradeWire

open Decoder Message

/-! ## The decoders -/

namespace OrderEntry

namespace NewOrderCross

/-- **The head keeps the legs of the record read over,** and nothing else
of it. -/
theorem refillHead_over (first second : NewOrderCross) (header : Header) :
    first.refillHead header = (do
      let (r, count) ← second.refillHead header
      pure ({ r with groups := first.groups }, count)) := by
  simp only [refillHead, bind_assoc, pure_bind]

/-- **Legs are read in the place of the legs there were.** -/
theorem refillGroups_over (r : NewOrderCross) (groups : List CrossGroup) (count : UInt8) :
    ({ r with groups } : NewOrderCross).refillGroups count = r.refillGroups count := by
  simp only [refillGroups]

/-- So of a record that a cross is read over nothing is left. -/
theorem refill_over (first second : NewOrderCross) : first.refill = second.refill := by
  unfold refill
  refine congrArg (framed typeByte) (funext fun header => ?_)
  rw [first.refillHead_over second header, bind_assoc]
  -- behind the head both read the same number of legs, of the same size
  refine bind_congr fun found => ?_
  obtain ⟨r, count⟩ := found
  rw [pure_bind]
  exact bind_congr fun _ => r.refillGroups_over first.groups count

end NewOrderCross

end OrderEntry

/-! ## Reading over a record -/

namespace Message

variable {order : ByteOrder} {M : Type} [Message order M]

/-- **One record, read over by one message after another.** What becomes of
the record between two messages is told by `next`, which knows the record
that was read over and what came of it: the record can be the one decoded,
or that with fields its owner has set since, or whatever a decode that
failed has left. -/
def reuse (next : M → Except Fault (M × Nat) → M) :
    M → List Bytes → List (Except Fault (M × Nat))
  | _, [] => []
  | record, bytes :: rest =>
    let result := decodeInto record bytes
    result :: reuse next (next record result) rest

end Message

namespace Family

/-- **No decoder depends on the record it reads over.** -/
theorem refill_eq_refill : (f : Family) → (k : f.Kind) → (first second : f.Record k) →
    refill first = refill second
  | orderEntry, .loginRequest, _, _ => rfl
  | orderEntry, .logoutRequest, _, _ => rfl
  | orderEntry, .clientHeartbeat, _, _ => rfl
  | orderEntry, .cancelOrder, _, _ => rfl
  | orderEntry, .newOrderCross, first, second =>
    OrderEntry.NewOrderCross.refill_over first second
  | feed, .systemEvent, _, _ => rfl
  | feed, .addOrder, _, _ => rfl
  | feed, .orderExecuted, _, _ => rfl
  | feed, .orderCancel, _, _ => rfl
  | feed, .deleteOrder, _, _ => rfl

variable {f : Family} {k : f.Kind}

/-- So what is read over a record is what is read over a blank one. -/
theorem decodeInto_over (record : f.Record k) (bytes : Bytes) :
    decodeInto record bytes = f.decode k bytes := by
  have hrefill : refill record = refill (blank : f.Record k) := f.refill_eq_refill k record blank
  rw [decodeInto, hrefill]
  rfl

/-- And so is every message of a run, whatever became of the record in
between. -/
theorem reuse_eq_map (next : f.Record k → Except Fault (f.Record k × Nat) → f.Record k)
    (record : f.Record k) (inputs : List Bytes) :
    reuse next record inputs = inputs.map (f.decode k) := by
  induction inputs generalizing record with
  | nil => rfl
  | cons bytes rest ih =>
    have hfirst := decodeInto_over record bytes
    rw [reuse, ih, hfirst, List.map_cons]

/-- **A record that is read over leaks nothing of its past.** Over any two
records of a kind, and over a blank one, the same bytes give the same
fault, or the same record from as many of them; and a source is left at
the same place, whether the read succeeds or fails. So a record kept for
one message after another gives of each what a new one would, whatever is
done to it in between and whatever a failed decode leaves. -/
theorem decodeInto_forgets (f : Family) (k : f.Kind) (first second : f.Record k) :
    (∀ bytes : Bytes,
      decodeInto first bytes = decodeInto second bytes ∧
      decodeInto first bytes = f.decode k bytes) ∧
    (∀ source : Source f.order, (refill first).run source = (refill second).run source) ∧
    ∀ (next : f.Record k → Except Fault (f.Record k × Nat) → f.Record k) (inputs : List Bytes),
      reuse next first inputs = inputs.map (f.decode k) := by
  refine ⟨fun bytes => ?_, fun source => ?_, fun next inputs => reuse_eq_map next first inputs⟩
  · have hfirst := decodeInto_over first bytes
    have hsecond := decodeInto_over second bytes
    exact ⟨hfirst.trans hsecond.symm, hfirst⟩
  · rw [f.refill_eq_refill k first second]

end Family

end TradeWire
