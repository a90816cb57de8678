/-!
# Octets — byte strings of a fixed length

A field of the wire has a length of its own, whatever it holds, so its
bytes are a list together with that length.
-/

namespace TradeWire

/-- Bytes in the order in which they stand on the wire. -/
abbrev Bytes := List UInt8

/-- **A byte string whose length its type knows.** -/
@[ext]
structure Octets (n : Nat) where
  /-- The bytes themselves. -/
  toList : Bytes
  length_toList : toList.length = n
  deriving DecidableEq

namespace Octets

attribute [simp] length_toList

/-- All bytes zero: what a field holds that nothing has been put in. -/
def zero (n : Nat) : Octets n := ⟨List.replicate n 0, List.length_replicate⟩

instance (n : Nat) : Inhabited (Octets n) := ⟨zero n⟩

/-- The bytes as a field of `n`, if they are that many. -/
def ofList? (n : Nat) (bytes : Bytes) : Option (Octets n) :=
  if h : bytes.length = n then some ⟨bytes, h⟩ else none

@[simp] theorem ofList?_toList {n : Nat} (octets : Octets n) :
    ofList? n octets.toList = some octets := by
  simp [ofList?]

end Octets

end TradeWire
