import Mathlib.Data.List.Forall2
import TradeWire.Proofs.Announcement
import TradeWire.Proofs.Capacity
/-!
# Visibility — what of a record its bytes show

A record can hold values that are not written: those behind an optional
field that is absent. Two records that differ in nothing else look alike,
and the wire tells records apart exactly where they do not. Records that
look alike have the same length counted and write the same bytes, whether
or not they keep the rules of the format. And an encoding is a prefix of
another only where both are the same, of records of one kind that look
alike.

Both directions go through the canonical record, which has everything
blank that is not shown: records look alike where they have one canonical
record (`visiblyEqual_iff`). Neither counting nor writing looks at more
than that (`encodedLen_and_fields?_canonical`), and it is what decoding
gives back, so whoever reads an encoding knows the record by the bytes of
the encoding alone, whatever follows them.
-/

namespace TradeWire

open Decoder Message

namespace OrderEntry

/-! ## Legs -/

namespace CrossGroup

variable {presence : Presence .w16}

/-- **Two legs look alike** in a cross with these optional fields. -/
structure VisiblyEqual (presence : Presence .w16) (g h : CrossGroup) : Prop where
  side : g.side = h.side
  allocQty : g.allocQty = h.allocQty
  clOrdId : g.clOrdId = h.clOrdId
  account : presence.contains accountIndex = true → g.account = h.account

theorem visiblyEqual_iff (g h : CrossGroup) :
    VisiblyEqual presence g h ↔ canonical presence g = canonical presence h := by
  simp only [canonical_eq, CrossGroup.mk.injEq, shown_eq_shown_iff]
  constructor
  · rintro ⟨hside, hqty, hid, haccount⟩
    exact ⟨hside, hqty, hid, haccount⟩
  · rintro ⟨hside, hqty, hid, haccount⟩
    exact ⟨hside, hqty, hid, haccount⟩

/-- Legs look alike one by one where they do as a whole. -/
theorem forall₂_visiblyEqual_iff (gs hs : List CrossGroup) :
    List.Forall₂ (VisiblyEqual presence) gs hs ↔
      gs.map (canonical presence) = hs.map (canonical presence) := by
  have hrel : VisiblyEqual presence = fun g h => canonical presence g = canonical presence h :=
    funext₂ fun g h => propext (visiblyEqual_iff g h)
  rw [hrel, ← List.forall₂_eq_eq_eq, List.forall₂_map_left_iff, List.forall₂_map_right_iff]

theorem fields_canonical (g : CrossGroup) :
    fields presence (canonical presence g) = fields presence g := by
  rw [canonical_eq]
  simp only [fields, fields_shown]

end CrossGroup

/-! ## Records with optional fields -/

namespace CancelOrder

/-- **Two cancellations look alike.** -/
structure VisiblyEqual (r s : CancelOrder) : Prop where
  header : r.header = s.header
  origClOrdId : r.origClOrdId = s.origClOrdId
  presence : r.presence = s.presence
  clearingFirm : r.presence.contains clearingFirmIndex = true → r.clearingFirm = s.clearingFirm

theorem visiblyEqual_iff (r s : CancelOrder) :
    r.VisiblyEqual s ↔ canonical r = canonical s := by
  obtain ⟨header, id, presence, firm⟩ := r
  obtain ⟨header', id', presence', firm'⟩ := s
  simp only [canonical_eq, CancelOrder.mk.injEq]
  constructor
  · rintro ⟨rfl, rfl, rfl, hfirm⟩
    exact ⟨rfl, rfl, rfl, (shown_eq_shown_iff _ _ _).2 hfirm⟩
  · rintro ⟨rfl, rfl, rfl, hfirm⟩
    exact ⟨rfl, rfl, rfl, (shown_eq_shown_iff _ _ _).1 hfirm⟩

theorem encodedLen_canonical (r : CancelOrder) : (canonical r).encodedLen = r.encodedLen := by
  rw [canonical_eq]
  rfl

theorem fields?_canonical (r : CancelOrder) : (canonical r).fields? = r.fields? := by
  have hlen := r.encodedLen_canonical
  rw [canonical_eq] at hlen ⊢
  unfold fields?
  rw [hlen, fields_shown]

end CancelOrder

namespace NewOrderCross

/-- **Two crosses look alike.** -/
structure VisiblyEqual (r s : NewOrderCross) : Prop where
  header : r.header = s.header
  crossId : r.crossId = s.crossId
  crossType : r.crossType = s.crossType
  crossPrioritization : r.crossPrioritization = s.crossPrioritization
  price : r.price = s.price
  orderQty : r.orderQty = s.orderQty
  presence : r.presence = s.presence
  symbol : r.presence.contains symbolIndex = true → r.symbol = s.symbol
  capacity : r.presence.contains capacityIndex = true → r.capacity = s.capacity
  clearingFirm : r.presence.contains clearingFirmIndex = true → r.clearingFirm = s.clearingFirm
  /-- As many legs, which look alike one by one. -/
  groups : List.Forall₂ (CrossGroup.VisiblyEqual r.presence) r.groups s.groups

theorem visiblyEqual_iff (r s : NewOrderCross) :
    r.VisiblyEqual s ↔ canonical r = canonical s := by
  obtain ⟨header, crossId, crossType, crossPrioritization, price, orderQty, presence, symbol,
    capacity, firm, groups⟩ := r
  obtain ⟨header', crossId', crossType', crossPrioritization', price', orderQty', presence',
    symbol', capacity', firm', groups'⟩ := s
  simp only [canonical_eq, NewOrderCross.mk.injEq]
  constructor
  · rintro ⟨rfl, rfl, rfl, rfl, rfl, rfl, rfl, hsymbol, hcapacity, hfirm, hgroups⟩
    exact ⟨rfl, rfl, rfl, rfl, rfl, rfl, rfl, (shown_eq_shown_iff _ _ _).2 hsymbol,
      (shown_eq_shown_iff _ _ _).2 hcapacity, (shown_eq_shown_iff _ _ _).2 hfirm,
      (CrossGroup.forall₂_visiblyEqual_iff _ _).1 hgroups⟩
  · rintro ⟨rfl, rfl, rfl, rfl, rfl, rfl, rfl, hsymbol, hcapacity, hfirm, hgroups⟩
    exact ⟨rfl, rfl, rfl, rfl, rfl, rfl, rfl, (shown_eq_shown_iff _ _ _).1 hsymbol,
      (shown_eq_shown_iff _ _ _).1 hcapacity, (shown_eq_shown_iff _ _ _).1 hfirm,
      (CrossGroup.forall₂_visiblyEqual_iff _ _).2 hgroups⟩

theorem fields?_canonical (r : NewOrderCross) : (canonical r).fields? = r.fields? := by
  have hlen := r.encodedLen_canonical
  rw [canonical_eq] at hlen ⊢
  have hgroups : (r.groups.map (CrossGroup.canonical r.presence)).flatMap
      (CrossGroup.fields r.presence) = r.groups.flatMap (CrossGroup.fields r.presence) := by
    rw [List.flatMap_map]
    exact congrArg (r.groups.flatMap ·) (funext CrossGroup.fields_canonical)
  unfold fields? optionalFields
  rw [hlen]
  dsimp only
  rw [List.length_map, hgroups, fields_shown, fields_shown, fields_shown]

end NewOrderCross

end OrderEntry

namespace Family

/-- **Two records of a kind look alike:** they agree on their fixed
fields, on which optional fields they have, and on each of those, of
themselves and of as many legs. Where there are no optional fields, they
agree. -/
def VisiblyEqual : (f : Family) → (k : f.Kind) → f.Record k → f.Record k → Prop
  | orderEntry, .cancelOrder, (r : OrderEntry.CancelOrder), s => r.VisiblyEqual s
  | orderEntry, .newOrderCross, (r : OrderEntry.NewOrderCross), s => r.VisiblyEqual s
  | _, _, record, other => record = other

variable {f : Family} {k : f.Kind} {record other : f.Record k}

/-- **Records look alike where they have one canonical record.** -/
theorem visiblyEqual_iff : f.VisiblyEqual k record other ↔ canonical record = canonical other := by
  cases f with
  | feed => cases k <;> exact Iff.rfl
  | orderEntry =>
    cases k with
    | loginRequest => exact Iff.rfl
    | logoutRequest => exact Iff.rfl
    | clientHeartbeat => exact Iff.rfl
    | cancelOrder => exact OrderEntry.CancelOrder.visiblyEqual_iff record other
    | newOrderCross => exact OrderEntry.NewOrderCross.visiblyEqual_iff record other

/-- **Neither counting nor writing looks behind an absent field,** also
in a record that breaks a rule. -/
theorem encodedLen_and_fields?_canonical (record : f.Record k) :
    encodedLen (canonical record) = encodedLen record ∧
      fields? (canonical record) = fields? record := by
  cases f with
  | feed => cases k <;> exact ⟨rfl, rfl⟩
  | orderEntry =>
    cases k with
    | loginRequest => exact ⟨rfl, rfl⟩
    | logoutRequest => exact ⟨rfl, rfl⟩
    | clientHeartbeat => exact ⟨rfl, rfl⟩
    | cancelOrder =>
      exact ⟨OrderEntry.CancelOrder.encodedLen_canonical record,
        OrderEntry.CancelOrder.fields?_canonical record⟩
    | newOrderCross =>
      exact ⟨OrderEntry.NewOrderCross.encodedLen_canonical record,
        OrderEntry.NewOrderCross.fields?_canonical record⟩

/-- So records that look alike are counted and written alike, wherever a
sink stands and however far the write gets. -/
theorem VisiblyEqual.written (h : f.VisiblyEqual k record other) :
    encodedLen record = encodedLen other ∧
      ∀ sink : Sink f.order, write record sink = write other sink := by
  have hcanonical := visiblyEqual_iff.1 h
  obtain ⟨hlen, hfields⟩ := encodedLen_and_fields?_canonical record
  obtain ⟨hlen', hfields'⟩ := encodedLen_and_fields?_canonical other
  refine ⟨?_, fun sink => ?_⟩
  · rw [← hlen, ← hlen', hcanonical]
  · rw [write, write, ← hfields, ← hfields', hcanonical]

/-- And have one layout, or none. -/
theorem VisiblyEqual.layout?_eq (h : f.VisiblyEqual k record other) :
    layout? record = layout? other := by
  rw [← LawfulMessage.layout?_canonical record, visiblyEqual_iff.1 h,
    LawfulMessage.layout?_canonical]

/-- **A layout tells its kind and its record to whoever reads a string it
stands in front of.** Where it is a prefix of another layout, a decoder
finds both records there, so they are one. -/
theorem visiblyEqual_of_prefix {k' : f.Kind} {other : f.Record k'} {chunk longer : Bytes}
    (h : layout? record = some chunk) (h' : layout? other = some longer)
    (hfront : chunk <+: longer) :
    ∃ same : k = k', f.VisiblyEqual k' (same ▸ record) other := by
  obtain ⟨rest, rfl⟩ := hfront
  have hdecode := decode_layout h rest
  have hdecode' := decode_layout h' []
  rw [List.append_nil] at hdecode'
  obtain rfl := kind_unique hdecode hdecode'
  have hboth := Except.ok.inj (hdecode.symm.trans hdecode')
  exact ⟨rfl, visiblyEqual_iff.2 (congrArg Prod.fst hboth)⟩

/-- **The wire shows the visible part of a record, and nothing else.**
Records that look alike, whether or not they keep the rules, have the
same length counted, and write the same into every buffer, with the same
success or fault, also where it is cut short. Any two records of a family
that keep the rules have encodings, and one is a prefix of the other
exactly where both records are of one kind and look alike. -/
theorem visible_part_shown (f : Family) :
    (∀ (k : f.Kind) (record other : f.Record k), f.VisiblyEqual k record other →
      encodedLen record = encodedLen other ∧
      (∀ buffer : Bytes, encode record buffer = encode other buffer) ∧
      ∀ sink : Sink f.order, write record sink = write other sink) ∧
    ∀ (k k' : f.Kind) (record : f.Record k) (other : f.Record k'),
      Message.Encodable record → Message.Encodable other →
        ∃ written longer : Bytes,
          (∀ buffer : Bytes, encodedLen record ≤ buffer.length →
            encode record buffer =
              .ok (encodedLen record, written ++ buffer.drop (encodedLen record))) ∧
          (∀ buffer : Bytes, encodedLen other ≤ buffer.length →
            encode other buffer =
              .ok (encodedLen other, longer ++ buffer.drop (encodedLen other))) ∧
          (written <+: longer ↔ ∃ same : k = k', f.VisiblyEqual k' (same ▸ record) other) := by
  constructor
  · intro k record other h
    obtain ⟨hlen, hwrite⟩ := h.written
    refine ⟨hlen, fun buffer => ?_, hwrite⟩
    rw [encode, encode, hwrite]
  · intro k k' record other hrecord hother
    obtain ⟨written, hwritten, -⟩ := exists_layout hrecord
    obtain ⟨longer, hlonger, -⟩ := exists_layout hother
    refine ⟨written, longer, fun buffer => encode_of_layout hwritten,
      fun buffer => encode_of_layout hlonger, visiblyEqual_of_prefix hwritten hlonger, ?_⟩
    rintro ⟨rfl, halike⟩
    have hlayout := halike.layout?_eq
    rw [hwritten, hlonger] at hlayout
    have heq : written = longer := Option.some.inj hlayout
    exact heq ▸ List.prefix_refl written

/-- The cross that is partly shown, with other values behind what it does
not show. -/
def otherwiseHidden : OrderEntry.NewOrderCross :=
  { partlyShown with
    capacity := 65
    clearingFirm := ⟨[88, 88, 88, 88], rfl⟩
    groups := [{ side := 49 }, { side := 50, account := ⟨List.replicate 16 89, rfl⟩ }] }

theorem visible_part_shown_partlyShown :
    orderEntry.VisiblyEqual .newOrderCross partlyShown otherwiseHidden ∧
      partlyShown ≠ otherwiseHidden ∧ encodedLen otherwiseHidden = 105 ∧
      encode partlyShown (List.replicate 60 7) = encode otherwiseHidden (List.replicate 60 7) ∧
      Message.Encodable shownFirm ∧ Message.Encodable partlyShown ∧
      ∃ firm cross : Bytes,
        encode shownFirm (List.replicate 36 7) = .ok (35, firm ++ [7]) ∧
        encode partlyShown (List.replicate 106 7) = .ok (105, cross ++ [7]) ∧
        ¬ firm <+: cross := by
  have halike : orderEntry.VisiblyEqual .newOrderCross partlyShown otherwiseHidden :=
    (OrderEntry.NewOrderCross.visiblyEqual_iff _ _).2 (by decide)
  have hfirm : Message.Encodable shownFirm := by
    change shownFirm.presence.Within OrderEntry.CancelOrder.defined
    decide
  have hpartly : Message.Encodable partlyShown := ⟨by decide, by decide⟩
  have hcounted : encodedLen partlyShown = 105 := by decide
  obtain ⟨hforward, hconverse⟩ := visible_part_shown orderEntry
  obtain ⟨hlen, hencode, -⟩ := hforward .newOrderCross partlyShown otherwiseHidden halike
  obtain ⟨firm, cross, hwrite, hwrite', hfront⟩ :=
    hconverse .cancelOrder .newOrderCross shownFirm partlyShown hfirm hpartly
  refine ⟨halike, by decide, hlen.symm.trans hcounted, hencode _, hfirm, hpartly, firm, cross,
    hwrite _ (by decide), hwrite' _ (by decide), fun hle => ?_⟩
  obtain ⟨same, -⟩ := hfront.1 hle
  cases same

end Family

end TradeWire
