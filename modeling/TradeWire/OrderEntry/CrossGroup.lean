import TradeWire.Decoder
import TradeWire.Presence
/-!
# Order entry — the legs of a cross

A cross repeats a group of fields once for each leg. Whether a leg shows
its account is said once for all legs, in the presence set of the cross
itself, so a leg's layout hangs on its parent.
-/

namespace TradeWire

namespace OrderEntry

/-- **One leg of a cross.** -/
@[ext]
structure CrossGroup where
  side : UInt8 := 0
  allocQty : UInt32 := 0
  clOrdId : Octets 20 := .zero 20
  account : Octets 16 := .zero 16
  deriving DecidableEq

namespace CrossGroup

/-- The index, among the optional fields of a cross, of its legs'
accounts. -/
def accountIndex : Nat := 9

/-- The bytes of a leg without an account. -/
def minSize : Nat := 1 + 4 + 20

/-- The bytes of each leg of a cross with these optional fields. -/
def size (presence : Presence .w16) : Nat :=
  minSize + if presence.contains accountIndex then 16 else 0

/-- The fields of a leg of a cross with these optional fields. -/
def fields (presence : Presence .w16) (g : CrossGroup) : List Bytes :=
  [Field.bytes .little g.side, Field.bytes .little g.allocQty, Field.bytes .little g.clOrdId] ++
    if presence.contains accountIndex then [Field.bytes .little g.account] else []

/-- Reads a leg of a cross with these optional fields. -/
def decoder (presence : Presence .w16) : Decoder .little CrossGroup := do
  let side ← Decoder.field
  let allocQty ← Decoder.field
  let clOrdId ← Decoder.field
  let account ← Decoder.fieldIf (presence.contains accountIndex)
  pure { side, allocQty, clOrdId, account }

/-- The leg with a blank account where the cross shows none. -/
def canonical (presence : Presence .w16) (g : CrossGroup) : CrossGroup :=
  if presence.contains accountIndex then g else { g with account := .zero 16 }

end CrossGroup

end OrderEntry

end TradeWire
