import TradeWire.Proofs.Dispatching
/-!
# Capacity — what encoding says of any record and any buffer

Encoding checks the rules of the format before it writes a byte, so a
record that breaks one is refused in every buffer, an empty one
included. A record that breaks none is written field by field, and the
first field without room ends it. So the room a record needs is the sum
of its fields, and that is the length counted without writing: `encode`
lacks room exactly below it, and from there on writes the same bytes
over whatever stood there.

An order-entry message is at least a preamble and at most a cross with
everything in it, so its length always fits the two bytes that announce
it.
-/

namespace TradeWire

namespace Sink

variable {order : ByteOrder}

/-- What is written is taken from the room. -/
theorem remaining_write {s t : Sink order} {bytes : Bytes} (h : s.write bytes = (.ok (), t)) :
    bytes.length ≤ s.remaining ∧ t.remaining = s.remaining - bytes.length := by
  have hbuffer : t.buffer.length = s.buffer.length := by
    have hlen := s.length_buffer_write bytes
    rwa [h] at hlen
  unfold write at h
  split at h
  · next hle =>
    have hpos : t.pos = s.pos + bytes.length := by
      cases h
      rfl
    refine ⟨hle, ?_⟩
    unfold remaining
    omega
  · cases h

/-- **A run of writes lacks room exactly where all of them together
do.** -/
theorem writeAll_eq_error_iff (s : Sink order) (fields : List Bytes) (fault : Fault) :
    (s.writeAll fields).1 = .error fault ↔
      fault = .shortBuffer ∧ s.remaining < fields.flatten.length := by
  induction fields generalizing s with
  | nil => simp [writeAll]
  | cons bytes fields ih =>
    rw [writeAll, List.flatten_cons, List.length_append]
    cases hwrite : s.write bytes with
    | mk result t =>
      cases result with
      | ok done =>
        obtain ⟨hle, hremaining⟩ := remaining_write hwrite
        dsimp only
        rw [ih t, hremaining]
        constructor
        · rintro ⟨rfl, hlt⟩
          exact ⟨rfl, by omega⟩
        · rintro ⟨rfl, hlt⟩
          exact ⟨rfl, by omega⟩
      | error found =>
        have hfound : (s.write bytes).1 = .error found := by rw [hwrite]
        obtain ⟨rfl, hlt⟩ := (s.write_eq_error_iff bytes found).1 hfound
        simp only [Except.error.injEq]
        constructor
        · rintro rfl
          exact ⟨rfl, by omega⟩
        · rintro ⟨rfl, -⟩
          rfl

end Sink

namespace Message

open LawfulMessage

variable {order : ByteOrder} {M : Type} [Message order M]

/-- Encoding fails where writing does. -/
theorem encode_eq_error_iff_write (record : M) (buffer : Bytes) (fault : Fault) :
    encode record buffer = .error fault ↔
      (write record (Sink.ofBuffer buffer)).1 = .error fault := by
  unfold encode
  rcases write record (Sink.ofBuffer buffer) with ⟨_ | _, _⟩ <;> simp

variable [LawfulMessage order M]

/-- A record without a layout breaks a rule. -/
theorem layout?_eq_none_iff (record : M) : layout? record = none ↔ ¬ Message.Encodable record := by
  rw [← isSome_layout?]
  simp

/-- **Why encoding fails:** a rule is broken, or the room is less than the
length counted. A broken rule is told before the room is looked at. -/
theorem encode_eq_error_iff (record : M) (buffer : Bytes) (fault : Fault) :
    encode record buffer = .error fault ↔
      (fault = .badValue ∧ ¬ Message.Encodable record) ∨
      (fault = .shortBuffer ∧ Message.Encodable record ∧ buffer.length < encodedLen record) := by
  rw [encode_eq_error_iff_write, write]
  cases hfields : fields? record with
  | none =>
    have hbroken : ¬ Message.Encodable record := by
      rw [← layout?_eq_none_iff, layout?, hfields]
      rfl
    simp [hbroken, eq_comm]
  | some fields =>
    have hlayout : layout? record = some fields.flatten := by rw [layout?, hfields]; rfl
    have hrules := encodable_of_layout hlayout
    have hlen := length_layout hlayout
    have hroom : (Sink.ofBuffer buffer : Sink order).remaining = buffer.length := rfl
    dsimp only
    rw [Sink.writeAll_eq_error_iff, hlen, hroom]
    simp [hrules]

/-- The bytes of a record and nothing else are its layout. -/
theorem toBytes_eq_ok_iff (record : M) (chunk : Bytes) :
    toBytes record = .ok chunk ↔ layout? record = some chunk := by
  unfold toBytes
  cases hlayout : layout? record with
  | none =>
    have hbroken := (layout?_eq_none_iff record).1 hlayout
    have hencode := (encode_eq_error_iff record (List.replicate (encodedLen record) 0) .badValue).2
      (.inl ⟨rfl, hbroken⟩)
    simp [hencode, Except.map]
  | some written =>
    have hencode := encode_of_layout hlayout
      (Nat.le_of_eq (List.length_replicate (a := (0 : UInt8))).symm)
    simp [hencode, Except.map]

end Message

namespace Family

open Message LawfulMessage

/-! ## The rules of the format -/

/-- **A record breaks a rule of the format:** it claims an optional field
that its message does not have, or has more legs than a byte can count.
Only the messages that have such fields can. -/
def Breaks : (f : Family) → (k : f.Kind) → f.Record k → Prop
  | orderEntry, .cancelOrder, (r : OrderEntry.CancelOrder) =>
    ∃ i, r.presence.contains i = true ∧ i ∉ OrderEntry.Kind.cancelOrder.optionalIndices
  | orderEntry, .newOrderCross, (r : OrderEntry.NewOrderCross) =>
    (∃ i, r.presence.contains i = true ∧ i ∉ OrderEntry.Kind.newOrderCross.optionalIndices) ∨
      255 < r.groups.length
  | _, _, _ => False

/-- The records that can be encoded are those that break no rule. -/
theorem encodable_iff_not_breaks (f : Family) (k : f.Kind) (record : f.Record k) :
    Message.Encodable record ↔ ¬ f.Breaks k record := by
  cases f with
  | feed => cases k <;> exact iff_of_true trivial id
  | orderEntry =>
    cases k with
    | loginRequest => exact iff_of_true trivial id
    | logoutRequest => exact iff_of_true trivial id
    | clientHeartbeat => exact iff_of_true trivial id
    | cancelOrder =>
      have hwithin := Presence.within_ofList_iff (OrderEntry.CancelOrder.presence record)
        OrderEntry.Kind.cancelOrder.optionalIndices
      refine hwithin.trans ?_
      simp [Breaks]
    | newOrderCross =>
      have hwithin := Presence.within_ofList_iff (OrderEntry.NewOrderCross.presence record)
        OrderEntry.Kind.newOrderCross.optionalIndices
      refine (and_congr_left' hwithin).trans ?_
      simp [Breaks, OrderEntry.NewOrderCross.maxGroupCount]

end Family

/-! ## How long an order-entry message is -/

namespace OrderEntry

/-- A length stands as a number behind the marker. -/
theorem Header.load_layout (header : Header) (type : UInt8) (length : UInt16) (rest : Bytes) :
    ByteOrder.little.load (((header.layout type length ++ rest).drop markerSize).take 2) =
      length.toNat := by
  have hmarker : (Field.bytes .little startOfMessage).length = markerSize := rfl
  have hlength : (Field.bytes .little length).length = 2 := Field.length_bytes _ _
  have hlt : length.toNat < 256 ^ 2 := length.toNat_lt
  simp only [layout, List.append_assoc]
  rw [List.drop_left' hmarker, List.take_left' hlength]
  have hload := ByteOrder.load_store .little 2 length.toNat
  rw [Nat.mod_eq_of_lt hlt] at hload
  exact hload

/-- A framed message is announced by the length it has. -/
theorem announced_of_reads_framed {α : Type} {type : UInt8} {body : Header → Decoder .little α}
    {chunk : Bytes} {v : α} (h : (framed type body).Reads chunk v) :
    preambleSize ≤ chunk.length ∧
      ByteOrder.little.load ((chunk.drop markerSize).take 2) = chunk.length - markerSize := by
  obtain ⟨header, rest, length, rfl, -, hlength⟩ := (reads_framed type body chunk v).1 h
  rw [header.load_layout, List.length_append, Header.length_layout]
  omega

end OrderEntry

namespace Family

open Message LawfulMessage

variable {k : orderEntry.Kind} {record : orderEntry.Record k} {chunk : Bytes}

/-- So an order-entry message announces its own length, less the
marker. -/
theorem announced_of_layout (h : layout? record = some chunk) :
    OrderEntry.preambleSize ≤ chunk.length ∧
      ByteOrder.little.load ((chunk.drop OrderEntry.markerSize).take 2) =
        chunk.length - OrderEntry.markerSize := by
  have hreads : (refill record).Reads chunk (canonical record) :=
    (reads_refill record (canonical record) chunk).2
      ⟨canonical_canonical record, (layout?_canonical record).trans h⟩
  obtain ⟨body, hbody⟩ := OrderEntry.exists_refill_eq_framed k record
  exact OrderEntry.announced_of_reads_framed (hbody ▸ hreads)

/-- The longest is a cross with everything in it. -/
theorem encodedLen_le (h : Message.Encodable record) : encodedLen record ≤ 10515 := by
  cases k with
  | loginRequest => exact (by decide : OrderEntry.LoginRequest.size ≤ 10515)
  | logoutRequest => exact (by decide : OrderEntry.LogoutRequest.size ≤ 10515)
  | clientHeartbeat => exact (by decide : OrderEntry.ClientHeartbeat.size ≤ 10515)
  | cancelOrder => exact Nat.le_trans (OrderEntry.CancelOrder.encodedLen_le record) (by decide)
  | newOrderCross => exact OrderEntry.NewOrderCross.encodedLen_le h.2

/-! ## What encoding says -/

/-- **What encoding says of any record and any buffer.** A record that
breaks a rule is refused, whatever the buffer. For any other the room is
too small exactly below the length counted, and from there on the same
bytes are written, as many as counted, over whatever stood there; what
stands behind them stays. An order-entry message announces how many they
are, and has at least a preamble and at most 10515, so there is no
message whose length could not be announced. -/
theorem encode_verdict (f : Family) (k : f.Kind) (record : f.Record k) :
    (∀ buffer : Bytes, encode record buffer = .error .badValue ↔ f.Breaks k record) ∧
    (¬ f.Breaks k record →
      (∀ buffer : Bytes,
        encode record buffer = .error .shortBuffer ↔ buffer.length < encodedLen record) ∧
      ∃ written : Bytes, written.length = encodedLen record ∧
        (∀ buffer : Bytes, encodedLen record ≤ buffer.length →
          encode record buffer =
            .ok (encodedLen record, written ++ buffer.drop (encodedLen record))) ∧
        (f = orderEntry →
          10 ≤ encodedLen record ∧ encodedLen record ≤ 10515 ∧
          ByteOrder.little.load ((written.drop 2).take 2) = encodedLen record - 2 ∧
          ∀ (header : OrderEntry.Header) (type : UInt8),
            (header.fields? type (encodedLen record)).isSome)) := by
  constructor
  · intro buffer
    rw [encode_eq_error_iff, encodable_iff_not_breaks]
    simp
  · intro hrules
    have hencodable := (f.encodable_iff_not_breaks k record).2 hrules
    obtain ⟨written, hlayout, hlen⟩ := exists_layout hencodable
    refine ⟨fun buffer => ?_, written, hlen, fun buffer => encode_of_layout hlayout, ?_⟩
    · rw [encode_eq_error_iff]
      simp [hencodable]
    · rintro rfl
      obtain ⟨hmin, hannounced⟩ := announced_of_layout hlayout
      have hmax := encodedLen_le hencodable
      rw [hlen] at hmin hannounced
      refine ⟨hmin, hmax, hannounced, fun header type => ?_⟩
      obtain ⟨fields, hfields, -⟩ := header.fields?_eq_some type hmin
        (Nat.lt_of_le_of_lt hmax (by decide))
      rw [hfields]
      rfl

/-- A cancellation that claims a second optional field. -/
def overclaiming : OrderEntry.CancelOrder where
  presence := .ofList [OrderEntry.CancelOrder.clearingFirmIndex, 1]

theorem encode_verdict_partlyShown :
    ¬ orderEntry.Breaks .newOrderCross partlyShown ∧
      encode partlyShown (List.replicate 104 7) = .error .shortBuffer ∧
      (∃ written : Bytes, written.length = 105 ∧
        encode partlyShown (List.replicate 107 7) = .ok (105, written ++ [7, 7]) ∧
        ByteOrder.little.load ((written.drop 2).take 2) = 103) ∧
      encode overclaiming [] = .error .badValue := by
  have hrules : ¬ orderEntry.Breaks .newOrderCross partlyShown := by
    have hencodable : Message.Encodable partlyShown := ⟨by decide, by decide⟩
    exact (encodable_iff_not_breaks orderEntry .newOrderCross partlyShown).1 hencodable
  have hbroken : orderEntry.Breaks .cancelOrder overclaiming := ⟨1, by decide, by decide⟩
  obtain ⟨-, hverdict⟩ := encode_verdict orderEntry .newOrderCross partlyShown
  obtain ⟨hshort, written, hwritten, hroom, hannounced⟩ := hverdict hrules
  obtain ⟨-, -, hlength, -⟩ := hannounced rfl
  refine ⟨hrules, (hshort _).2 (by decide), ⟨written, hwritten, hroom _ (by decide), hlength⟩, ?_⟩
  exact ((encode_verdict orderEntry .cancelOrder overclaiming).1 []).2 hbroken

end Family

end TradeWire
