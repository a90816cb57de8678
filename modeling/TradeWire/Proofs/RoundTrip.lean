import TradeWire.Family
import TradeWire.Proofs.CrossLaws
import TradeWire.Proofs.FeedLaws
import TradeWire.Proofs.OrderEntryLaws
/-!
# Round trips — records and their bytes

All ten kinds of message are lawful, so what a lawful message promises
holds of each family. Decoding an encoding gives back what the record
shows, and encoding what was decoded gives back the bytes: a record that
comes out of a decoder and the bytes that went in are two names of one
thing.
-/

namespace TradeWire

namespace Family

open Message

/-- **Every kind of message is lawful.** -/
instance lawful : (f : Family) → (k : f.Kind) → LawfulMessage f.order (f.Record k)
  | orderEntry, .loginRequest => inferInstanceAs (LawfulMessage .little OrderEntry.LoginRequest)
  | orderEntry, .logoutRequest => inferInstanceAs (LawfulMessage .little OrderEntry.LogoutRequest)
  | orderEntry, .clientHeartbeat =>
    inferInstanceAs (LawfulMessage .little OrderEntry.ClientHeartbeat)
  | orderEntry, .cancelOrder => inferInstanceAs (LawfulMessage .little OrderEntry.CancelOrder)
  | orderEntry, .newOrderCross => inferInstanceAs (LawfulMessage .little OrderEntry.NewOrderCross)
  | feed, k => Feed.Kind.lawful k

variable {f : Family} {k : f.Kind}

/-- What a decoder of a family accepts: canonical records, by their
layouts. -/
theorem decode_eq_ok_iff {bytes : Bytes} {record : f.Record k} {n : Nat} :
    f.decode k bytes = .ok (record, n) ↔
      n ≤ bytes.length ∧ canonical record = record ∧ layout? record = some (bytes.take n) :=
  decodeInto_eq_ok_iff blank record bytes n

/-- A canonical record takes the bytes of the record it comes from. -/
theorem encodedLen_canonical {record : f.Record k} (h : Message.Encodable record) :
    encodedLen (canonical record) = encodedLen record := by
  obtain ⟨chunk, hlayout, hlen⟩ := exists_layout h
  rw [← hlen]
  exact (LawfulMessage.length_layout
    ((LawfulMessage.layout?_canonical record).trans hlayout)).symm

/-- A layout decodes to the record it shows, whatever stands behind
it. -/
theorem decode_layout {record : f.Record k} {chunk : Bytes} (h : layout? record = some chunk)
    (rest : Bytes) : f.decode k (chunk ++ rest) = .ok (canonical record, chunk.length) := by
  refine decode_eq_ok_iff.2 ⟨?_, LawfulMessage.canonical_canonical record, ?_⟩
  · rw [List.length_append]
    exact Nat.le_add_right _ _
  · rw [List.take_left, LawfulMessage.layout?_canonical, h]

/-- **Decoding undoes encoding.** A record that keeps the rules is
written as the same bytes into every buffer that has the room, and
whatever follows them there, they decode to the record with everything
blank that it does not show. That record is written as the same bytes
again. -/
theorem decode_written (f : Family) (k : f.Kind) (record : f.Record k)
    (h : Message.Encodable record) :
    encodedLen (canonical record) = encodedLen record ∧
    ∃ written : Bytes, written.length = encodedLen record ∧
      (∀ buffer : Bytes, encodedLen record ≤ buffer.length →
        encode record buffer =
          .ok (encodedLen record, written ++ buffer.drop (encodedLen record)) ∧
        encode (canonical record) buffer =
          .ok (encodedLen record, written ++ buffer.drop (encodedLen record))) ∧
      ∀ tail : Bytes,
        f.decode k (written ++ tail) = .ok (canonical record, encodedLen record) := by
  obtain ⟨written, hlayout, hlen⟩ := exists_layout h
  have hcanonical := (LawfulMessage.layout?_canonical record).trans hlayout
  have heq := encodedLen_canonical h
  refine ⟨heq, written, hlen, fun buffer hroom => ⟨encode_of_layout hlayout hroom, ?_⟩,
    fun tail => ?_⟩
  · have hencode := encode_of_layout hcanonical (heq.symm ▸ hroom)
    rwa [heq] at hencode
  · refine decode_eq_ok_iff.2 ⟨?_, LawfulMessage.canonical_canonical record, ?_⟩
    · rw [List.length_append, hlen]
      exact Nat.le_add_right _ _
    · rw [hcanonical, ← hlen, List.take_left]

/-- A cross that shows a symbol and no accounts, with a capacity and an
account set all the same. -/
def partlyShown : OrderEntry.NewOrderCross where
  presence := .ofList [OrderEntry.NewOrderCross.symbolIndex]
  symbol := ⟨[65, 66, 67, 0, 0, 0, 0, 0], rfl⟩
  capacity := 80
  groups := [{ side := 49, account := ⟨List.replicate 16 88, rfl⟩ }, { side := 50 }]

theorem decode_written_partlyShown :
    Message.Encodable partlyShown ∧ canonical partlyShown ≠ partlyShown ∧
      encodedLen partlyShown = 105 ∧
      ∃ written : Bytes, written.length = 105 ∧ ∀ tail : Bytes,
        orderEntry.decode .newOrderCross (written ++ tail) =
          .ok (canonical (M := OrderEntry.NewOrderCross) partlyShown, 105) := by
  have h : Message.Encodable partlyShown := ⟨by decide, by decide⟩
  have hlen : encodedLen partlyShown = 105 := by decide
  obtain ⟨-, written, hwritten, -, hdecode⟩ :=
    decode_written orderEntry .newOrderCross partlyShown h
  exact ⟨h, by decide, hlen, written, hwritten, hdecode⟩

/-- **Encoding undoes decoding,** whatever the bytes. A record that comes
out of a decoder shows all of itself and keeps the rules, and it is
written as the very bytes taken, so it and they determine one another. -/
theorem encode_decoded (f : Family) (k : f.Kind) :
    (∀ (bytes : Bytes) (record : f.Record k) (n : Nat), f.decode k bytes = .ok (record, n) →
      n ≤ bytes.length ∧ n = encodedLen record ∧
      canonical record = record ∧ Message.Encodable record ∧
      ∀ buffer : Bytes, n ≤ buffer.length →
        encode record buffer = .ok (n, bytes.take n ++ buffer.drop n)) ∧
    ∀ (bytes others : Bytes) (record other : f.Record k) (n m : Nat),
      f.decode k bytes = .ok (record, n) → f.decode k others = .ok (other, m) →
        (record = other ↔ bytes.take n = others.take m) := by
  constructor
  · intro bytes record n h
    obtain ⟨hn, hcanonical, hlayout⟩ := decode_eq_ok_iff.1 h
    have hlen : n = encodedLen record := eq_encodedLen_of_decodeInto h
    refine ⟨hn, hlen, hcanonical, encodable_of_layout hlayout, fun buffer hroom => ?_⟩
    have hencode := encode_of_layout hlayout (hlen ▸ hroom)
    rwa [← hlen] at hencode
  · intro bytes others record other n m h h'
    obtain ⟨hn, -, hlayout⟩ := decode_eq_ok_iff.1 h
    obtain ⟨hm, -, hlayout'⟩ := decode_eq_ok_iff.1 h'
    constructor
    · rintro rfl
      exact Option.some.inj (hlayout.symm.trans hlayout')
    · intro heq
      -- the same bytes taken: the second string decodes to both records
      have hnm : n = m := by
        have := congrArg List.length heq
        rwa [List.length_take_of_le hn, List.length_take_of_le hm] at this
      have hboth : f.decode k others = .ok (record, m) :=
        decode_eq_ok_iff.2 ⟨hm, (decode_eq_ok_iff.1 h).2.1, heq ▸ hlayout⟩
      exact congrArg Prod.fst (Except.ok.inj (hboth.symm.trans h'))

/-- The bytes of a cancellation that shows its clearing firm. -/
def shownFirmBytes : Bytes :=
  [0xBA, 0xBA, 33, 0, 0x39, 1, 2, 0, 0, 0] ++ List.replicate 20 65 ++ [1, 66, 67, 68, 69]

/-- The record they stand for. -/
def shownFirm : OrderEntry.CancelOrder where
  header := { matchingUnit := 1, sequenceNumber := 2 }
  origClOrdId := ⟨List.replicate 20 65, rfl⟩
  presence := .ofList [OrderEntry.CancelOrder.clearingFirmIndex]
  clearingFirm := ⟨[66, 67, 68, 69], rfl⟩

theorem encode_decoded_shownFirm :
    orderEntry.decode .cancelOrder (shownFirmBytes ++ [7]) = .ok (shownFirm, 35) ∧
    orderEntry.decode .cancelOrder (shownFirmBytes ++ [8, 9]) = .ok (shownFirm, 35) ∧
      encode shownFirm (List.replicate 36 0) = .ok (35, shownFirmBytes ++ [0]) ∧
      (shownFirmBytes ++ [7]).take 35 = (shownFirmBytes ++ [8, 9]).take 35 := by
  have h : orderEntry.decode .cancelOrder (shownFirmBytes ++ [7]) = .ok (shownFirm, 35) := rfl
  have h' : orderEntry.decode .cancelOrder (shownFirmBytes ++ [8, 9]) = .ok (shownFirm, 35) := rfl
  obtain ⟨hencode, hequal⟩ := encode_decoded orderEntry .cancelOrder
  obtain ⟨-, -, -, -, hwritten⟩ := hencode _ _ _ h
  exact ⟨h, h', hwritten (List.replicate 36 0) (by decide), (hequal _ _ _ _ _ _ h h').1 rfl⟩

end Family

end TradeWire
