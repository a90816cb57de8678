import TradeWire.Proofs.CrossLaws
import TradeWire.Proofs.Positions
import TradeWire.Proofs.Slices
import TradeWire.Proofs.Verdict
/-!
# Order entry — where the fields of a cross stand

A cross is written in order and read in order, and both directions would
agree as well if they agreed on the wrong order. So where each field
stands is said once more, by positions alone: the fixed fields at their
own, each optional field behind those of the lower indices that are shown,
the count behind them all, and the legs behind the count, one width after
another (`StandsIn`).
-/

namespace TradeWire

-- Sums start from the zero of `Nat` itself, whatever algebra is in scope.
attribute [local instance (high)] Zero.ofOfNat0

namespace OrderEntry

open Message

variable {bytes : Bytes}

/-! ## Positions -/

/-- **A leg stands at an offset,** of a cross with these optional
fields. -/
structure CrossGroup.StandsAt (presence : Presence .w16) (bytes : Bytes) (offset : Nat)
    (g : CrossGroup) : Prop where
  side : numberAt? bytes offset 1 = some g.side.toNat
  allocQty : numberAt? bytes (offset + 1) 4 = some g.allocQty.toNat
  clOrdId : slice bytes (offset + 5) 20 = g.clOrdId.toList
  account : presence.contains 9 = true → slice bytes (offset + 25) 16 = g.account.toList

namespace NewOrderCross

/-- **Where an optional field stands behind the bitmap:** behind those of
the lower indices that are shown. -/
def optionalOffset (presence : Presence .w16) (i : Nat) : Nat :=
  (((List.range i).filter presence.contains).map optionalSize).sum

/-- **A cross stands in the bytes,** field by field. -/
structure StandsIn (bytes : Bytes) (r : NewOrderCross) : Prop where
  crossId : slice bytes 10 20 = r.crossId.toList
  crossType : numberAt? bytes 30 1 = some r.crossType.toNat
  crossPrioritization : numberAt? bytes 31 1 = some r.crossPrioritization.toNat
  price : numberAt? bytes 32 8 = some r.price.toNat
  orderQty : numberAt? bytes 40 4 = some r.orderQty.toNat
  presence : numberAt? bytes 44 2 = some r.presence.bits.toNat
  symbol : r.presence.contains 0 = true →
    slice bytes (46 + optionalOffset r.presence 0) 8 = r.symbol.toList
  capacity : r.presence.contains 1 = true →
    numberAt? bytes (46 + optionalOffset r.presence 1) 1 = some r.capacity.toNat
  clearingFirm : r.presence.contains 2 = true →
    slice bytes (46 + optionalOffset r.presence 2) 4 = r.clearingFirm.toList
  count : numberAt? bytes (46 + optionalOffset r.presence 3) 1 = some r.groups.length
  /-- The legs stand in a row, each as long as the accounts make it. -/
  legs : ∀ k (hk : k < r.groups.length),
    CrossGroup.StandsAt r.presence bytes
      (47 + optionalOffset r.presence 3 + k * if r.presence.contains 9 then 41 else 25)
      r.groups[k]

theorem optionalOffset_zero (presence : Presence .w16) : optionalOffset presence 0 = 0 := rfl

theorem optionalOffset_succ (presence : Presence .w16) (i : Nat) :
    optionalOffset presence (i + 1) =
      optionalOffset presence i + if presence.contains i then optionalSize i else 0 := by
  unfold optionalOffset
  rw [List.range_succ, List.filter_append, List.map_append, List.sum_append]
  cases h : presence.contains i <;> simp [h]

/-- No field beyond the third has a place of its own. -/
theorem encodedLen_eq_positions (r : NewOrderCross) :
    r.encodedLen = 47 + optionalOffset r.presence 3 +
      r.groups.length * if r.presence.contains 9 then 41 else 25 := by
  have hoptional : (r.presence.toList.map optionalSize).sum = optionalOffset r.presence 3 := by
    rw [sum_optionalSize, optionalOffset_succ, optionalOffset_succ, optionalOffset_succ,
      optionalOffset_zero, Nat.zero_add, Nat.add_assoc]
    rfl
  rw [encodedLen, hoptional, CrossGroup.size_eq]
  rfl

end NewOrderCross

/-! ## Numbers where they stand -/

/-- A number stands where its bytes do. -/
theorem numberAt?_of_slice {offset width n : Nat} {field : Bytes}
    (h : slice bytes offset width = field) (hlen : field.length = width) (hpos : 0 < width)
    (hload : ByteOrder.little.load field = n) : numberAt? bytes offset width = some n := by
  have hthere : offset + width ≤ bytes.length := by
    rw [← h, slice, List.length_take, List.length_drop] at hlen
    omega
  rw [numberAt?, if_pos hthere]
  change some (ByteOrder.little.load (slice bytes offset width)) = _
  rw [h, hload]

theorem numberAt?_of_word (w : Width) {value : w.Word} {offset : Nat}
    (h : slice bytes offset w.octets = Field.bytes .little value) :
    numberAt? bytes offset w.octets = some (w.toNat value) := by
  have hlen : (Field.bytes .little value).length = w.octets := by
    rw [Field.length_bytes, w.size_word]
  have hpos : 0 < w.octets := by cases w <;> decide
  exact numberAt?_of_slice h hlen hpos (w.load_bytes .little value)

/-! ## Legs -/

namespace CrossGroup

variable (presence : Presence .w16)

/-- The widths of the fields of a leg. -/
def widths : List Nat := [1, 4, 20] ++ if presence.contains accountIndex then [16] else []

theorem map_length_fields (g : CrossGroup) :
    (fields presence g).map List.length = widths presence := by
  unfold fields widths
  split <;> simp

theorem standsAt_of_slices {offset : Nat} {g : CrossGroup}
    (h : ∀ i, slice bytes (offset + ((widths presence).take i).sum) ((widths presence).getD i 0) =
      (fields presence g).getD i []) : StandsAt presence bytes offset g where
  side := numberAt?_of_word .w8 (h 0)
  allocQty := numberAt?_of_word .w32 (h 1)
  clOrdId := h 2
  account hshown := by
    have haccount := h 3
    unfold widths fields at haccount
    rw [show presence.contains accountIndex = true from hshown] at haccount
    exact haccount

/-- **A leg in a row of legs** stands behind as many widths as there are
legs before it. -/
theorem standsAt_flatMap_layout (before : Bytes) (groups : List CrossGroup) (rest : Bytes)
    {k : Nat} (hk : k < groups.length) :
    StandsAt presence (before ++ (groups.flatMap (layout presence) ++ rest))
      (before.length + k * size presence) groups[k] := by
  have hsplit : groups.take k ++ groups[k] :: groups.drop (k + 1) = groups := by
    rw [List.getElem_cons_drop, List.take_append_drop]
  have hbytes : groups.flatMap (layout presence) =
      (groups.take k).flatMap (layout presence) ++
        ((fields presence groups[k]).flatten ++ (groups.drop (k + 1)).flatMap (layout presence)) := by
    rw [flatten_fields, ← List.flatMap_cons, ← List.flatMap_append, hsplit]
  -- the legs in front are as long as their number says, whatever they hold
  have hfront : ((groups.take k).flatMap (layout presence)).length = k * size presence := by
    rw [length_flatMap_layout, List.length_take_of_le (Nat.le_of_lt hk)]
  refine standsAt_of_slices presence fun i => ?_
  rw [Nat.add_assoc, slice_append, ← hfront, hbytes, List.append_assoc, List.append_assoc,
    slice_append]
  exact slice_flatten (map_length_fields presence groups[k]) _ i

end CrossGroup

/-! ## The whole cross -/

namespace NewOrderCross

/-- The parts of a cross in front of its legs; an optional field that is not
shown is an empty one. -/
def parts (r : NewOrderCross) (preamble : Bytes) (count : UInt8) : List Bytes :=
  [preamble, Field.bytes .little r.crossId, Field.bytes .little r.crossType,
    Field.bytes .little r.crossPrioritization, Field.bytes .little r.price,
    Field.bytes .little r.orderQty, Field.bytes .little r.presence,
    if r.presence.contains symbolIndex then Field.bytes .little r.symbol else [],
    if r.presence.contains capacityIndex then Field.bytes .little r.capacity else [],
    if r.presence.contains clearingFirmIndex then Field.bytes .little r.clearingFirm else [],
    Field.bytes .little count]

/-- Their widths. -/
def widths (presence : Presence .w16) : List Nat :=
  [10, 20, 1, 1, 8, 4, 2,
    if presence.contains symbolIndex then 8 else 0,
    if presence.contains capacityIndex then 1 else 0,
    if presence.contains clearingFirmIndex then 4 else 0, 1]

theorem flatten_parts (r : NewOrderCross) (preamble : Bytes) (count : UInt8) :
    (r.parts preamble count).flatten = preamble ++ r.head count := by
  simp [parts, head]

theorem map_length_parts (r : NewOrderCross) {preamble : Bytes}
    (h : preamble.length = preambleSize) (count : UInt8) :
    (r.parts preamble count).map List.length = widths r.presence := by
  simp only [parts, widths, List.map_cons, List.map_nil, List.length_nil, Field.length_bytes,
    apply_ite List.length, h]
  rfl

/-- The optional fields, and the count behind them, stand behind the widths
of what is in front of them. -/
theorem sum_take_widths (presence : Presence .w16) :
    ((widths presence).take 8).sum = 46 + optionalOffset presence 1 ∧
    ((widths presence).take 9).sum = 46 + optionalOffset presence 2 ∧
    ((widths presence).take 10).sum = 46 + optionalOffset presence 3 ∧
    (widths presence).sum = 47 + optionalOffset presence 3 := by
  have hoffsets : optionalOffset presence 1 = (if presence.contains symbolIndex then 8 else 0) ∧
      optionalOffset presence 2 = optionalOffset presence 1 +
        (if presence.contains capacityIndex then 1 else 0) ∧
      optionalOffset presence 3 = optionalOffset presence 2 +
        (if presence.contains clearingFirmIndex then 4 else 0) := by
    refine ⟨?_, optionalOffset_succ presence 1, optionalOffset_succ presence 2⟩
    rw [optionalOffset_succ presence 0, optionalOffset_zero, Nat.zero_add]
    rfl
  obtain ⟨hone, htwo, hthree⟩ := hoffsets
  simp only [widths, List.take_succ_cons, List.take_zero, List.sum_cons, List.sum_nil]
  omega

/-- A layout is the parts in front of the legs, and the legs. -/
theorem exists_parts {r : NewOrderCross} {chunk : Bytes} (h : layout? r = some chunk) :
    ∃ preamble count, preamble.length = preambleSize ∧ count.toNat = r.groups.length ∧
      chunk = (r.parts preamble count).flatten ++
        r.groups.flatMap (CrossGroup.layout r.presence) := by
  have hrules : r.presence.Within defined ∧ r.groups.length ≤ maxGroupCount :=
    encodable_of_layout h
  rw [layout?_eq, if_pos hrules] at h
  obtain rfl := Option.some.inj h
  refine ⟨r.header.layout typeByte (UInt16.ofNat (r.encodedLen - markerSize)),
    UInt8.ofNat r.groups.length, r.header.length_layout _ _,
    UInt8.toNat_ofNat_of_lt' (Nat.lt_succ_of_le hrules.2), ?_⟩
  rw [flatten_parts, body, List.append_assoc]

/-- **A layout stands where the positions say,** whatever follows it. -/
theorem standsIn_layout {r : NewOrderCross} {chunk : Bytes} (h : layout? r = some chunk)
    (rest : Bytes) : r.StandsIn (chunk ++ rest) := by
  obtain ⟨preamble, count, hpreamble, hcount, rfl⟩ := exists_parts h
  -- a field that is not shown is a part all the same, so each part has one
  -- index, whatever the presence set
  have hwidths := r.map_length_parts hpreamble count
  have hslice := slice_flatten hwidths (r.groups.flatMap (CrossGroup.layout r.presence) ++ rest)
  obtain ⟨hone, htwo, hthree, hsum⟩ := sum_take_widths r.presence
  have hlen : (r.parts preamble count).flatten.length = 47 + optionalOffset r.presence 3 := by
    rw [List.length_flatten, hwidths, hsum]
  rw [List.append_assoc]
  exact {
    crossId := hslice 1
    crossType := numberAt?_of_word .w8 (hslice 2)
    crossPrioritization := numberAt?_of_word .w8 (hslice 3)
    price := numberAt?_of_word .w64 (hslice 4)
    orderQty := numberAt?_of_word .w32 (hslice 5)
    presence := numberAt?_of_slice (hslice 6) rfl (by decide) (load_bytes_presence r.presence)
    symbol := fun hshown => by
      have hwidth : (widths r.presence).getD 7 0 = 8 := if_pos hshown
      have hpart : (r.parts preamble count).getD 7 [] = r.symbol.toList := if_pos hshown
      have hsymbol := hslice 7
      rw [hwidth, hpart] at hsymbol
      exact hsymbol
    capacity := fun hshown => by
      have hwidth : (widths r.presence).getD 8 0 = 1 := if_pos hshown
      have hpart : (r.parts preamble count).getD 8 [] = Field.bytes .little r.capacity :=
        if_pos hshown
      have hcapacity := hslice 8
      rw [hone, hwidth, hpart] at hcapacity
      exact numberAt?_of_word .w8 hcapacity
    clearingFirm := fun hshown => by
      have hwidth : (widths r.presence).getD 9 0 = 4 := if_pos hshown
      have hpart : (r.parts preamble count).getD 9 [] = r.clearingFirm.toList := if_pos hshown
      have hfirm := hslice 9
      rw [htwo, hwidth, hpart] at hfirm
      exact hfirm
    count := by
      have hnumber := hslice 10
      rw [hthree] at hnumber
      rw [← hcount]
      exact numberAt?_of_word .w8 hnumber
    legs := fun k hk => by
      have hleg := CrossGroup.standsAt_flatMap_layout r.presence (r.parts preamble count).flatten
        r.groups rest hk
      rw [hlen, CrossGroup.size_eq] at hleg
      exact hleg
  }

/-- So does a cross that is accepted. -/
theorem standsIn_of_decode {r : NewOrderCross} {n : Nat} (h : Message.decode bytes = .ok (r, n)) :
    r.StandsIn bytes := by
  obtain ⟨-, -, hlayout⟩ := (decodeInto_eq_ok_iff blank r bytes n).1 h
  have hstands := standsIn_layout hlayout (bytes.drop n)
  rw [List.take_append_drop] at hstands
  exact hstands

/-- **Every field of a cross stands where the bits below it imply.** What is
written of a record that keeps the rules is as long as its fields in a row,
so nothing stands between or behind them; and the record that is read from
bytes that are accepted is the one that stands in them, with everything
blank that has no place there. -/
theorem written_and_read_in_place :
    (∀ r : NewOrderCross, Message.Encodable r →
      ∃ written : Bytes,
        written.length = 47 + optionalOffset r.presence 3 +
          (r.groups.length * if r.presence.contains 9 then 41 else 25) ∧
        (∀ buffer : Bytes, written.length ≤ buffer.length →
          encode r buffer = .ok (written.length, written ++ buffer.drop written.length)) ∧
        r.StandsIn written) ∧
    ∀ (bytes : Bytes) (r : NewOrderCross) (n : Nat), Message.decode bytes = .ok (r, n) →
      n = 47 + optionalOffset r.presence 3 +
        (r.groups.length * if r.presence.contains 9 then 41 else 25) ∧
      n ≤ bytes.length ∧ canonical r = r ∧ r.StandsIn bytes := by
  constructor
  · intro r h
    obtain ⟨written, hlayout, hlen⟩ := exists_layout h
    have hstands := standsIn_layout hlayout []
    rw [List.append_nil] at hstands
    refine ⟨written, hlen.trans r.encodedLen_eq_positions, fun buffer hroom => ?_, hstands⟩
    rw [hlen] at hroom ⊢
    exact encode_of_layout hlayout hroom
  · intro bytes r n h
    obtain ⟨hn, hcanonical, -⟩ := (decodeInto_eq_ok_iff blank r bytes n).1 h
    have hlen : n = r.encodedLen := eq_encodedLen_of_decodeInto h
    exact ⟨hlen.trans r.encodedLen_eq_positions, hn, hcanonical, standsIn_of_decode h⟩

/-- A cross that shows its clearing firm, neither symbol nor capacity, and
the accounts of its two legs. -/
def firmAndAccounts : NewOrderCross where
  orderQty := 300
  presence := .ofList [clearingFirmIndex, CrossGroup.accountIndex]
  clearingFirm := ⟨[70, 73, 82, 77], rfl⟩
  groups := [{ side := 49, allocQty := 300 },
    { side := 50, allocQty := 299, account := ⟨List.replicate 16 65, rfl⟩ }]

/-- The bytes it stands in. -/
def firmAndAccountsBytes : Bytes :=
  [0xBA, 0xBA, 131, 0, 0x41, 0, 0, 0, 0, 0] ++ List.replicate 30 0 ++ [44, 1, 0, 0, 4, 2] ++
    [70, 73, 82, 77, 2] ++ ([49, 44, 1, 0, 0] ++ List.replicate 36 0) ++
    ([50, 43, 1, 0, 0] ++ List.replicate 20 0 ++ List.replicate 16 65)

theorem written_and_read_in_place_firmAndAccounts :
    (∃ written : Bytes, written.length = 133 ∧
      encode firmAndAccounts (List.replicate 133 7) = .ok (133, written) ∧
      slice written 46 4 = [70, 73, 82, 77] ∧ numberAt? written (51 + 1 * 41 + 1) 4 = some 299 ∧
      slice written (51 + 1 * 41 + 25) 16 = List.replicate 16 65) ∧
    Message.decode firmAndAccountsBytes = .ok (firmAndAccounts, 133) ∧
      firmAndAccounts.StandsIn firmAndAccountsBytes := by
  obtain ⟨hwritten, hread⟩ := written_and_read_in_place
  have h : Message.Encodable firmAndAccounts := ⟨by decide, by decide⟩
  have hdecode : Message.decode firmAndAccountsBytes = .ok (firmAndAccounts, 133) := by cbv
  obtain ⟨written, hlen, hencode, hstands⟩ := hwritten firmAndAccounts h
  have hlength : written.length = 133 := hlen
  have hnothing : (List.replicate 133 (7 : UInt8)).drop 133 = [] := rfl
  have hroom := hencode (List.replicate 133 7) (Nat.le_of_eq hlength)
  rw [hlength, hnothing, List.append_nil] at hroom
  have hleg := hstands.legs 1 (by decide)
  obtain ⟨-, -, -, hplaces⟩ := hread _ _ _ hdecode
  exact ⟨⟨written, hlength, hroom, hstands.clearingFirm rfl, hleg.allocQty, hleg.account rfl⟩,
    hdecode, hplaces⟩

end NewOrderCross

end OrderEntry

end TradeWire
