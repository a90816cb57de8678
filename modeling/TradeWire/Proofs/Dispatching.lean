import TradeWire.Delivery
import TradeWire.Proofs.Arrival
import TradeWire.Proofs.RoundTrip
/-!
# Dispatching — one delivery and the decoders behind it

A delivery first looks at the type and then decodes, from the same first
byte, a message of the kind the type announces. `dispatch_cases` says
once what can come of that; the rest of the file reads it forwards and
backwards. A decoder that accepts has seen its own type
(`peekType_of_decode`), so a delivery succeeds exactly where some kind
decodes.
-/

namespace TradeWire

open Decoder Message

/-! ## The type in front of a message -/

namespace OrderEntry

theorem reads_peekType (chunk : Bytes) (type : UInt8) :
    peekType.Reads chunk type ↔
      ∃ length : UInt16, chunk =
        Field.bytes .little startOfMessage ++ Field.bytes .little length ++
          Field.bytes .little type := by
  simp only [peekType, marker, bind_assoc, reads_field_bind, reads_require_bind, reads_field,
    List.append_assoc]
  constructor
  · rintro ⟨_, _, rfl, rfl, length, _, rfl, rfl⟩
    exact ⟨length, rfl⟩
  · rintro ⟨length, rfl⟩
    exact ⟨_, _, rfl, rfl, length, _, rfl, rfl⟩

/-- A framed message shows its type where one looks for it. -/
theorem exists_reads_peekType {α : Type} {type : UInt8} {body : Header → Decoder .little α}
    {chunk : Bytes} {v : α} (h : (framed type body).Reads chunk v) :
    ∃ head rest, chunk = head ++ rest ∧ peekType.Reads head type := by
  obtain ⟨header, rest, length, rfl, -, -⟩ := (reads_framed type body chunk v).1 h
  refine ⟨_, Field.bytes .little header.matchingUnit ++
    Field.bytes .little header.sequenceNumber ++ rest, ?_, (reads_peekType _ type).2 ⟨length, rfl⟩⟩
  simp only [Header.layout, List.append_assoc]

theorem frugal_peekType : peekType.Frugal := by
  simp [peekType, marker, -bind_pure_comp]

/-- **A type is the last of five bytes.** -/
theorem peekType_eq_ok_iff {bytes : Bytes} {type : UInt8} {m : Nat} :
    peekType.decode bytes = .ok (type, m) ↔
      m = 5 ∧ ∃ length : UInt16, bytes.take 5 =
        Field.bytes .little startOfMessage ++ Field.bytes .little length ++
          Field.bytes .little type := by
  have hsize : ∀ length : UInt16, (Field.bytes .little startOfMessage ++
      Field.bytes .little length ++ Field.bytes .little type).length = 5 := by
    intro length
    simp only [List.length_append, Field.length_bytes]
    rfl
  rw [decode_eq_ok_iff frugal_peekType]
  constructor
  · rintro ⟨hm, hreads⟩
    obtain ⟨length, htake⟩ := (reads_peekType _ _).1 hreads
    have hlen := congrArg List.length htake
    rw [List.length_take_of_le hm, hsize] at hlen
    exact ⟨hlen, length, hlen ▸ htake⟩
  · rintro ⟨rfl, length, htake⟩
    have hlen := congrArg List.length htake
    rw [List.length_take, hsize] at hlen
    exact ⟨by omega, (reads_peekType _ _).2 ⟨length, htake⟩⟩

/-- Where a type is seen, so is the length in front of it. -/
theorem le_length_of_peekType {bytes : Bytes} {type : UInt8} {m : Nat}
    (h : peekType.decode bytes = .ok (type, m)) : markerSize + 2 ≤ bytes.length := by
  obtain ⟨-, length, htake⟩ := peekType_eq_ok_iff.1 h
  have hlen := congrArg List.length htake
  simp only [List.length_append, Field.length_bytes, List.length_take] at hlen
  have hsize : Field.size UInt16 = 2 := rfl
  have hmarker : markerSize = 2 := rfl
  omega

theorem exists_refill_eq_framed : (k : Kind) → (prior : k.Record) →
    ∃ body, refill prior = framed (Message.type k.Record) body
  | .loginRequest, prior =>
    ⟨_, show refill (M := LoginRequest) prior = framed LoginRequest.typeByte _ from rfl⟩
  | .logoutRequest, prior =>
    ⟨_, show refill (M := LogoutRequest) prior = framed LogoutRequest.typeByte _ from rfl⟩
  | .clientHeartbeat, prior =>
    ⟨_, show refill (M := ClientHeartbeat) prior = framed ClientHeartbeat.typeByte _ from rfl⟩
  | .cancelOrder, prior =>
    ⟨_, show CancelOrder.refill prior = framed CancelOrder.typeByte _ from rfl⟩
  | .newOrderCross, prior =>
    ⟨_, show NewOrderCross.refill prior = framed NewOrderCross.typeByte _ from rfl⟩

end OrderEntry

namespace Feed

theorem exists_refill_eq_tag (k : Kind) (prior : k.Record) :
    ∃ body, refill prior = (do tag (Message.type k.Record); body) := ⟨_, k.refill_eq prior⟩

/-- And so does a message behind its tag. -/
theorem exists_reads_peekType {α : Type} {type : UInt8} {body : Decoder .big α} {chunk : Bytes}
    {v : α} (h : (do tag type; body).Reads chunk v) :
    ∃ head rest, chunk = head ++ rest ∧ peekType.Reads head type := by
  simp only [tag, bind_assoc, reads_field_bind, reads_require_bind] at h
  obtain ⟨found, rest, rfl, rfl, -⟩ := h
  exact ⟨_, rest, rfl, (reads_field _ _).2 rfl⟩

end Feed

namespace Family

variable {f : Family} {k : f.Kind} {listener : f.Listener} {bytes : Bytes}

/-- The byte that announces a kind announces no other. -/
@[simp] theorem kindOf?_typeOf (f : Family) (k : f.Kind) : f.kindOf? (f.typeOf k) = some k := by
  cases f <;> cases k <;> rfl

theorem typeOf_of_kindOf? {type : UInt8} (h : f.kindOf? type = some k) : f.typeOf k = type := by
  have hfound := List.find?_some h
  exact of_decide_eq_true hfound

/-- A byte announces no kind where it is the type of none. -/
theorem kindOf?_eq_none_iff {type : UInt8} :
    f.kindOf? type = none ↔ ∀ k : f.Kind, f.typeOf k ≠ type := by
  constructor
  · intro hnone k htype
    have hsome := kindOf?_typeOf f k
    rw [htype, hnone] at hsome
    cases hsome
  · intro h
    refine List.find?_eq_none.2 fun k _ => ?_
    rw [decide_eq_true_eq]
    exact h k

theorem frugal_peekType (f : Family) : f.peekType.Frugal := by
  cases f with
  | orderEntry => exact OrderEntry.frugal_peekType
  | feed => exact frugal_field

/-- A message begins with its type. -/
theorem exists_reads_peekType {chunk : Bytes} {prior record : f.Record k}
    (h : (refill prior).Reads chunk record) :
    ∃ head rest, chunk = head ++ rest ∧ f.peekType.Reads head (f.typeOf k) := by
  cases f with
  | orderEntry =>
    obtain ⟨body, hbody⟩ := OrderEntry.exists_refill_eq_framed k prior
    exact OrderEntry.exists_reads_peekType (hbody ▸ h)
  | feed =>
    obtain ⟨body, hbody⟩ := Feed.exists_refill_eq_tag k prior
    exact Feed.exists_reads_peekType (hbody ▸ h)

/-- **A decoder that accepts has seen its own type.** -/
theorem peekType_of_decode {record : f.Record k} {n : Nat}
    (h : f.decode k bytes = .ok (record, n)) :
    ∃ m, f.peekType.decode bytes = .ok (f.typeOf k, m) := by
  have hread := (Decoder.decode_eq_ok_iff (LawfulMessage.frugal_refill blank) bytes record n).1 h
  obtain ⟨head, rest, hchunk, hpeek⟩ := exists_reads_peekType hread.2
  have hwhole : bytes = head ++ (rest ++ bytes.drop n) := by
    rw [← List.append_assoc, ← hchunk, List.take_append_drop]
  refine ⟨head.length, (Decoder.decode_eq_ok_iff f.frugal_peekType _ _ _).2 ⟨?_, ?_⟩⟩
  · rw [hwhole, List.length_append]
    exact Nat.le_add_right _ _
  · rw [hwhole, List.take_left]
    exact hpeek

/-! ## What comes of a delivery -/

/-- What a delivery is to the listener: the outcome, and what it was
handed. -/
def Delivery.handed (d : f.Delivery) : Except Fault Nat × List f.Event := (d.outcome, d.events)

theorem dispatch_of_peekType {m : Nat} (h : f.peekType.decode bytes = .ok (f.typeOf k, m)) :
    f.dispatch listener bytes = f.deliver k listener bytes := by
  simp only [dispatch, h, kindOf?_typeOf]

/-- **A delivery fails at the type, decodes a message of the kind the
type announces, or knows no such kind.** -/
theorem dispatch_cases (listener : f.Listener) (bytes : Bytes) :
    (∃ fault, f.peekType.decode bytes = .error fault ∧
      f.dispatch listener bytes = { outcome := .error fault, events := [], log := [] }) ∨
    (∃ k m, f.peekType.decode bytes = .ok (f.typeOf k, m) ∧
      f.dispatch listener bytes = f.deliver k listener bytes) ∨
    ∃ type m, f.peekType.decode bytes = .ok (type, m) ∧ f.kindOf? type = none ∧
      f.dispatch listener bytes = {
        outcome := .error .unknownType
        events := []
        log := [.unknownType f type bytes.length] } := by
  cases hpeek : f.peekType.decode bytes with
  | error fault => exact .inl ⟨fault, rfl, by simp only [dispatch, hpeek]⟩
  | ok found =>
    obtain ⟨type, m⟩ := found
    cases hkind : f.kindOf? type with
    | none => exact .inr (.inr ⟨type, m, rfl, hkind, by simp only [dispatch, hpeek, hkind]⟩)
    | some k =>
      obtain rfl := typeOf_of_kindOf? hkind
      exact .inr (.inl ⟨k, m, rfl, dispatch_of_peekType hpeek⟩)

/-- What decodes is delivered. -/
theorem dispatch_of_decode {record : f.Record k} {n : Nat}
    (h : f.decode k bytes = .ok (record, n)) :
    f.dispatch listener bytes = {
      outcome := .ok n
      events := if listener k then [⟨k, record⟩] else []
      log := [.dispatched (f.nameOf k) n] } := by
  obtain ⟨m, hpeek⟩ := peekType_of_decode h
  rw [dispatch_of_peekType hpeek]
  simp only [deliver, h]

/-- What is delivered was decoded. -/
theorem exists_decode_of_dispatch {n : Nat} (h : (f.dispatch listener bytes).outcome = .ok n) :
    ∃ k, ∃ record : f.Record k, f.decode k bytes = .ok (record, n) := by
  rcases dispatch_cases listener bytes with ⟨fault, -, heq⟩ | ⟨k, m, -, heq⟩ | ⟨type, m, -, -, heq⟩
  · rw [heq] at h
    cases h
  · rw [heq, deliver] at h
    split at h
    · next record consumed hdecode =>
      cases h
      exact ⟨k, record, hdecode⟩
    · cases h
  · rw [heq] at h
    cases h

/-- A delivery that fails hands over nothing. -/
theorem events_of_error {fault : Fault} (h : (f.dispatch listener bytes).outcome = .error fault) :
    (f.dispatch listener bytes).events = [] := by
  rcases dispatch_cases listener bytes with ⟨_, -, heq⟩ | ⟨k, m, -, heq⟩ | ⟨type, m, -, -, heq⟩
  · rw [heq]
  · rw [heq, deliver] at h ⊢
    split at h
    · cases h
    · next hdecode => simp only
  · rw [heq]

/-! ## A delivery from more bytes -/

/-- What is delivered from some of the bytes is delivered from all of
them. Only the log, which tells how many bytes were given, can differ. -/
theorem dispatch_append (h : (f.dispatch listener bytes).outcome ≠ .error .shortBuffer)
    (more : Bytes) :
    (f.dispatch listener (bytes ++ more)).handed = (f.dispatch listener bytes).handed := by
  rcases dispatch_cases listener bytes with
    ⟨fault, hpeek, heq⟩ | ⟨k, m, hpeek, heq⟩ | ⟨type, m, hpeek, hkind, heq⟩
  · have hne : f.peekType.decode bytes ≠ .error .shortBuffer := by
      rw [heq] at h
      rw [hpeek]
      simpa using h
    have hmore := (decode_append hne more).trans hpeek
    rw [heq]
    simp only [dispatch, hmore, Delivery.handed]
  · have hmore := (decode_append (by simp [hpeek]) more).trans hpeek
    rw [dispatch_of_peekType hmore, heq]
    rw [heq] at h
    have hne : f.decode k bytes ≠ .error .shortBuffer := by
      intro hshort
      simp only [deliver, hshort] at h
      exact h rfl
    have hdecode : f.decode k (bytes ++ more) = f.decode k bytes := decode_append hne more
    simp only [deliver, hdecode]
    split <;> rfl
  · have hmore := (decode_append (by simp [hpeek]) more).trans hpeek
    rw [heq]
    simp only [dispatch, hmore, hkind, Delivery.handed]

/-- A delivery knows no kind for its bytes exactly where it sees a type
that is none of the family's. -/
theorem dispatch_eq_unknownType_iff :
    (f.dispatch listener bytes).outcome = .error .unknownType ↔
      ∃ type m, f.peekType.decode bytes = .ok (type, m) ∧ f.kindOf? type = none := by
  constructor
  · intro h
    rcases dispatch_cases listener bytes with
      ⟨fault, hpeek, heq⟩ | ⟨k, m, -, heq⟩ | ⟨type, m, hpeek, hkind, -⟩
    · rw [heq] at h
      cases h
      exact absurd hpeek (decode_ne_unknownType _ _)
    · rw [heq, deliver] at h
      split at h
      · cases h
      · next hdecode =>
        cases h
        exact absurd hdecode (decode_ne_unknownType _ _)
    · exact ⟨type, m, hpeek, hkind⟩
  · rintro ⟨type, m, hpeek, hkind⟩
    simp only [dispatch, hpeek, hkind]

/-- How far to step over a message of no known kind is seen once its type
is: the length stands in front of it. -/
theorem unknownSize_append (h : (f.dispatch listener bytes).outcome = .error .unknownType)
    (more : Bytes) : f.unknownSize (bytes ++ more) = f.unknownSize bytes := by
  obtain ⟨type, m, hpeek, -⟩ := dispatch_eq_unknownType_iff.1 h
  cases f with
  | orderEntry =>
    have hlen := OrderEntry.le_length_of_peekType hpeek
    simp only [unknownSize, OrderEntry.declaredSize]
    rw [List.drop_append_of_le_length (by omega), List.take_append_of_le_length]
    rw [List.length_drop]
    omega
  | feed => rfl

end Family

end TradeWire
