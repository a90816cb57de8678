import TradeWire.Message
import TradeWire.OrderEntry.Preamble
/-!
# Order entry — session messages

A client logs in, shows that it is alive, and logs out. Only the login
has fields of its own; the other two are a preamble and nothing else.
-/

namespace TradeWire

namespace OrderEntry

/-! ## Logging in -/

/-- **A client's request to log in.** -/
@[ext]
structure LoginRequest where
  header : Header := {}
  sessionSubId : Octets 4 := .zero 4
  username : Octets 4 := .zero 4
  password : Octets 20 := .zero 20
  deriving DecidableEq

namespace LoginRequest

/-- The byte that announces a login. -/
def typeByte : UInt8 := 0x37

/-- The bytes of every login. -/
def size : Nat := preambleSize + 4 + 4 + 20

instance : Message .little LoginRequest where
  type := typeByte
  name := "LoginRequest"
  blank := {}
  encodedLen _ := size
  fields? r := do
    let preamble ← r.header.fields? typeByte size
    some (preamble ++ [
      Field.bytes .little r.sessionSubId,
      Field.bytes .little r.username,
      Field.bytes .little r.password])
  refill r := framed typeByte fun header => do
    let r := { r with header }
    let r := { r with sessionSubId := ← Decoder.field }
    let r := { r with username := ← Decoder.field }
    let r := { r with password := ← Decoder.field }
    pure r
  Encodable _ := True
  canonical r := r

end LoginRequest

/-! ## Messages that are a preamble only -/

/-- **A client's request to log out.** -/
@[ext]
structure LogoutRequest where
  header : Header := {}
  deriving DecidableEq

namespace LogoutRequest

/-- The byte that announces a logout. -/
def typeByte : UInt8 := 0x02

/-- The bytes of every logout. -/
def size : Nat := preambleSize

instance : Message .little LogoutRequest where
  type := typeByte
  name := "LogoutRequest"
  blank := {}
  encodedLen _ := size
  fields? r := r.header.fields? typeByte size
  refill r := framed typeByte fun header => pure { r with header }
  Encodable _ := True
  canonical r := r

end LogoutRequest

/-- **A client's sign of life.** -/
@[ext]
structure ClientHeartbeat where
  header : Header := {}
  deriving DecidableEq

namespace ClientHeartbeat

/-- The byte that announces a heartbeat. -/
def typeByte : UInt8 := 0x03

/-- The bytes of every heartbeat. -/
def size : Nat := preambleSize

instance : Message .little ClientHeartbeat where
  type := typeByte
  name := "ClientHeartbeat"
  blank := {}
  encodedLen _ := size
  fields? r := r.header.fields? typeByte size
  refill r := framed typeByte fun header => pure { r with header }
  Encodable _ := True
  canonical r := r

end ClientHeartbeat

end OrderEntry

end TradeWire
