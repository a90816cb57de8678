import Mathlib.Logic.Equiv.Defs
import TradeWire.Feed.Kind
import TradeWire.Proofs.Lawful
/-!
# The feed — its messages are lawful

A feed message shows every field of its record, in the order of its
declaration, and has no rule that a record could break. It is a tag and a
row of fields, so all there is to say of a kind is which row that is, and
which field of the record each of its values is (`Kind.row`, `Kind.parts`).
Everything else is said once for the five.
-/

namespace TradeWire

-- Sums start from the zero of `Nat` itself, whatever algebra is in scope.
attribute [local instance (high)] Zero.ofOfNat0

namespace Feed

open Decoder Message

namespace Kind

/-! ## Which row a record is -/

/-- What the fields behind the tag have for values. -/
def Parts : Kind → Type
  | systemEvent => UInt32 × UInt8 × Unit
  | addOrder => UInt32 × UInt64 × UInt8 × UInt32 × Octets 8 × UInt32 × Unit
  | orderExecuted => UInt32 × UInt64 × UInt32 × UInt64 × Unit
  | orderCancel => UInt32 × UInt64 × UInt32 × Unit
  | deleteOrder => UInt32 × UInt64 × Unit

/-- The fields behind the tag. -/
def row : (k : Kind) → Row k.Parts
  | systemEvent => .cons (.cons .nil)
  | addOrder => .cons (.cons (.cons (.cons (.cons (.cons .nil)))))
  | orderExecuted => .cons (.cons (.cons (.cons .nil)))
  | orderCancel => .cons (.cons (.cons .nil))
  | deleteOrder => .cons (.cons .nil)

/-- **A record is its parts,** one for each field. -/
def parts : (k : Kind) → k.Record ≃ k.Parts
  | systemEvent =>
    { toFun := fun r : SystemEvent => (r.timestamp, r.eventCode, ())
      invFun := fun (timestamp, eventCode, _) => SystemEvent.mk timestamp eventCode
      left_inv := fun _ => rfl
      right_inv := fun _ => rfl }
  | addOrder =>
    { toFun := fun r : AddOrder =>
        (r.timestamp, r.orderId, r.side, r.shares, r.symbol, r.price, ())
      invFun := fun (timestamp, orderId, side, shares, symbol, price, _) =>
        AddOrder.mk timestamp orderId side shares symbol price
      left_inv := fun _ => rfl
      right_inv := fun _ => rfl }
  | orderExecuted =>
    { toFun := fun r : OrderExecuted =>
        (r.timestamp, r.orderId, r.executedShares, r.matchNumber, ())
      invFun := fun (timestamp, orderId, executedShares, matchNumber, _) =>
        OrderExecuted.mk timestamp orderId executedShares matchNumber
      left_inv := fun _ => rfl
      right_inv := fun _ => rfl }
  | orderCancel =>
    { toFun := fun r : OrderCancel => (r.timestamp, r.orderId, r.cancelledShares, ())
      invFun := fun (timestamp, orderId, cancelledShares, _) =>
        OrderCancel.mk timestamp orderId cancelledShares
      left_inv := fun _ => rfl
      right_inv := fun _ => rfl }
  | deleteOrder =>
    { toFun := fun r : DeleteOrder => (r.timestamp, r.orderId, ())
      invFun := fun (timestamp, orderId, _) => DeleteOrder.mk timestamp orderId
      left_inv := fun _ => rfl
      right_inv := fun _ => rfl }

variable (k : Kind)

/-- **Reading a message is reading a tag and a row,** whatever record it is
read over. -/
theorem refill_eq (prior : k.Record) :
    refill prior = (do
      tag (Message.type k.Record)
      let values ← k.row.decoder .big
      pure (k.parts.symm values)) := by
  cases k <;> rfl

/-- **And so is writing it.** -/
theorem fields?_eq (record : k.Record) : fields? record =
    some (Field.bytes .big (Message.type k.Record) :: k.row.fields .big (k.parts record)) := by
  cases k <;> rfl

theorem encodedLen_eq (record : k.Record) : encodedLen record = tagSize + k.row.widths.sum := by
  cases k <;> rfl

theorem layout?_eq_row (record : k.Record) : layout? record =
    some (Field.bytes .big (Message.type k.Record) ++
      (k.row.fields .big (k.parts record)).flatten) := by
  rw [layout?, k.fields?_eq, Option.map_some, List.flatten_cons]

end Kind

/-! ## Every message is lawful -/

theorem reads_tag_bind {α : Type} (type : UInt8) (d : Decoder .big α) (chunk : Bytes) (v : α) :
    (do tag type; d).Reads chunk v ↔
      ∃ rest, chunk = Field.bytes .big type ++ rest ∧ d.Reads rest v := by
  simp only [tag, bind_assoc, reads_field_bind, reads_require_bind]
  constructor
  · rintro ⟨_, rest, rfl, rfl, h⟩
    exact ⟨rest, rfl, h⟩
  · rintro ⟨rest, rfl, h⟩
    exact ⟨type, rest, rfl, rfl, h⟩

/-- A message of the feed shows all of its record. -/
theorem canonical_eq (k : Kind) (record : k.Record) : canonical record = record := by
  cases k <;> rfl

/-- No rule can be broken by a record of the feed. -/
theorem encodable (k : Kind) (record : k.Record) : Message.Encodable record := by
  cases k <;> trivial

instance Kind.lawful (k : Kind) : LawfulMessage .big k.Record := by
  refine .of_shown (canonical_eq k) (encodable k) ?some ?length ?reads ?frugal
  case some =>
    intro record
    rw [k.layout?_eq_row]
    rfl
  case length =>
    intro record chunk h
    rw [k.layout?_eq_row] at h
    rw [← Option.some.inj h, k.encodedLen_eq, List.length_append, Field.length_bytes,
      Row.length_flatten_fields]
    rfl
  case reads =>
    intro prior record chunk
    simp only [k.refill_eq, reads_tag_bind, Row.reads_map, k.layout?_eq_row, Option.some.injEq]
    constructor
    · rintro ⟨_, rfl, values, rfl, rfl⟩
      rw [k.parts.apply_symm_apply]
    · rintro rfl
      exact ⟨_, rfl, k.parts record, rfl, (k.parts.symm_apply_apply record).symm⟩
  case frugal =>
    intro prior
    simp only [k.refill_eq, tag, bind_assoc, frugal_field_bind, frugal_require_bind]
    exact fun _ _ => k.row.frugal_map k.parts.symm

end Feed

end TradeWire
