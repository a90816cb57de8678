import TradeWire.Proofs.CrossPositions
/-!
# Corruption — a message in which one of its numbers is altered

Three numbers decide how bytes are taken for a message: the length, the
type, and the count of a cross. Each of them is held against the others,
so a message in which one is altered is not accepted as what it was. The
length is one number and the size of the message another; a type belongs
to the sizes of its kind, and no two kinds share one, but for the two that
are a preamble and nothing else (`kind_of_sized`); and a cross with
another count is longer or shorter, whatever the bytes behind it are then
taken for.
-/

namespace TradeWire

/-! ## Bytes with others in their place -/

/-- The bytes with others in the place of as many. -/
def patch (bytes : Bytes) (offset : Nat) (new : Bytes) : Bytes :=
  bytes.take offset ++ new ++ bytes.drop (offset + new.length)

section Patch

variable {bytes new : Bytes} {offset start width : Nat}

theorem length_patch (h : offset + new.length ≤ bytes.length) :
    (patch bytes offset new).length = bytes.length := by
  simp only [patch, List.length_append, List.length_take, List.length_drop]
  omega

/-- What is put there stands there. -/
theorem slice_patch (new : Bytes) (h : offset ≤ bytes.length) :
    slice (patch bytes offset new) offset new.length = new := by
  have hfront : (bytes.take offset).length = offset := List.length_take_of_le h
  rw [slice, patch, List.append_assoc, List.drop_left' hfront, List.take_left]

/-- What stands in front stays. -/
theorem slice_patch_of_le (h : offset ≤ bytes.length) (hfront : start + width ≤ offset) :
    slice (patch bytes offset new) start width = slice bytes start width := by
  have htake : ∀ rest : Bytes, (bytes.take offset ++ rest).take (start + width) =
      bytes.take (start + width) := by
    intro rest
    rw [List.take_append_of_le_length (by rw [List.length_take]; omega), List.take_take,
      Nat.min_eq_left hfront]
  have hslice : ∀ all : Bytes, slice all start width = (all.take (start + width)).drop start := by
    intro all
    rw [slice, List.drop_take, Nat.add_sub_cancel_left]
  rw [hslice, hslice, patch, List.append_assoc, htake]

/-- And so does what stands behind. -/
theorem slice_patch_of_ge (h : offset ≤ bytes.length) (hbehind : offset + new.length ≤ start) :
    slice (patch bytes offset new) start width = slice bytes start width := by
  obtain ⟨d, rfl⟩ := Nat.exists_eq_add_of_le hbehind
  have hfront : (bytes.take offset ++ new).length = offset + new.length := by
    rw [List.length_append, List.length_take_of_le h]
  have hmoved := slice_append (bytes.take offset ++ new) (bytes.drop (offset + new.length)) d width
  rw [hfront] at hmoved
  rw [patch, hmoved, slice, List.drop_drop, slice]

end Patch

namespace ByteOrder

/-- Byte strings of one length that denote one number are the same. -/
theorem load_inj {order : ByteOrder} {bytes other : Bytes} (hlen : other.length = bytes.length)
    (h : order.load other = order.load bytes) : other = bytes := by
  have hstore := (store_load order (⟨other, hlen⟩ : Octets bytes.length)).symm.trans
    ((congrArg (order.store bytes.length) h).trans (store_load order ⟨bytes, rfl⟩))
  exact congrArg Octets.toList hstore

theorem load_singleton (byte : UInt8) : little.load [byte] = byte.toNat := by
  rw [load_little_cons]
  rfl

end ByteOrder

namespace OrderEntry

open Message

variable {bytes new : Bytes} {offset start width n : Nat} {k : Kind}

/-! ## Numbers in altered bytes -/

/-- A number that is not touched is the same. -/
theorem numberAt?_patch (hthere : offset + new.length ≤ bytes.length)
    (hclear : start + width ≤ offset ∨ offset + new.length ≤ start) :
    numberAt? (patch bytes offset new) start width = numberAt? bytes start width := by
  have hoffset : offset ≤ bytes.length := by omega
  have hslice : slice (patch bytes offset new) start width = slice bytes start width := by
    rcases hclear with hfront | hbehind
    · exact slice_patch_of_le hoffset hfront
    · exact slice_patch_of_ge hoffset hbehind
  rw [numberAt?, numberAt?, length_patch hthere]
  exact ite_congr rfl (fun _ => congrArg (fun field => some (ByteOrder.little.load field)) hslice)
    fun _ => rfl

/-- A number that is replaced is the one of the new bytes. -/
theorem numberAt?_patch_self (hthere : offset + new.length ≤ bytes.length) :
    numberAt? (patch bytes offset new) offset new.length = some (ByteOrder.little.load new) := by
  rw [numberAt?, length_patch hthere, if_pos hthere]
  exact congrArg (fun field => some (ByteOrder.little.load field)) (slice_patch new (by omega))

/-- Other bytes than those that stand there are another number. -/
theorem numberAt?_ne_load (hthere : offset + new.length ≤ bytes.length)
    (hne : new ≠ slice bytes offset new.length) :
    numberAt? bytes offset new.length ≠ some (ByteOrder.little.load new) := by
  rw [numberAt?, if_pos hthere]
  intro heq
  have hlen : new.length = (slice bytes offset new.length).length := by
    rw [slice, List.length_take, List.length_drop]
    omega
  exact hne (ByteOrder.load_inj hlen (Option.some.inj heq).symm)

/-! ## What altered bytes say -/

/-- What a message is announced by, as slices. -/
theorem announces_iff_slice :
    Announces k bytes ↔ slice bytes 0 2 = [0xBA, 0xBA] ∧
      slice bytes 4 1 = [Message.type k.Record] := by
  have htype : bytes[4]? = some (Message.type k.Record) ↔
      slice bytes 4 1 = [Message.type k.Record] := by
    rw [slice, List.take_one, List.head?_drop]
    cases bytes[4]? with
    | none => simp
    | some found => simp
  constructor
  · intro h
    exact ⟨h.marker, htype.1 h.type⟩
  · rintro ⟨hmarker, h⟩
    exact ⟨hmarker, htype.2 h⟩

/-- It is announced alike where neither the marker nor the type is
altered. -/
theorem Announces.patch (h : Announces k bytes) (hthere : offset + new.length ≤ bytes.length)
    (hclear : 2 ≤ offset ∧ offset + new.length ≤ 4 ∨ 5 ≤ offset) :
    Announces k (patch bytes offset new) := by
  obtain ⟨hmarker, htype⟩ := announces_iff_slice.1 h
  refine announces_iff_slice.2 ⟨?_, ?_⟩
  · rw [slice_patch_of_le (by omega) (by omega), hmarker]
  · rcases hclear with ⟨-, hfront⟩ | hbehind
    · rw [slice_patch_of_ge (by omega) hfront, htype]
    · rw [slice_patch_of_le (by omega) hbehind, htype]

/-- What is reserved is told by the bitmap, which no kind has in front of the
thirtieth byte, or behind the forty-sixth. -/
theorem bitmap?_patch (k : Kind) (hthere : offset + new.length ≤ bytes.length)
    (hclear : offset + new.length ≤ 30 ∨ 46 ≤ offset) :
    k.bitmap? (patch bytes offset new) = k.bitmap? bytes := by
  cases k with
  | loginRequest | logoutRequest | clientHeartbeat => rfl
  | cancelOrder => exact numberAt?_patch hthere (by omega)
  | newOrderCross => exact numberAt?_patch hthere (by omega)

theorem reserved_patch_iff (hthere : offset + new.length ≤ bytes.length)
    (hclear : offset + new.length ≤ 30 ∨ 46 ≤ offset) :
    k.Reserved (patch bytes offset new) ↔ k.Reserved bytes := by
  rw [Kind.Reserved, bitmap?_patch k hthere hclear, Kind.Reserved]

/-- How many bytes are needed is told by nothing in front of the bitmap. -/
theorem need?_patch (k : Kind) (hthere : offset + new.length ≤ bytes.length)
    (hfront : offset + new.length ≤ 30) :
    k.need? (patch bytes offset new) = k.need? bytes := by
  have hbitmap := bitmap?_patch k hthere (.inl hfront)
  cases k with
  | loginRequest | logoutRequest | clientHeartbeat => rfl
  | cancelOrder => rw [Kind.need?, Kind.need?, hbitmap]
  | newOrderCross =>
    rw [Kind.need?, Kind.need?, hbitmap]
    cases Kind.newOrderCross.bitmap? bytes with
    | none => rfl
    | some bitmap =>
      simp only [Option.bind_eq_bind, Option.bind_some]
      rw [numberAt?_patch hthere (.inr (by omega))]

/-! ## The sizes of a kind -/

/-- **The sizes that messages of a kind have,** whatever they show. -/
def Kind.Sized : Kind → Nat → Prop
  | loginRequest, n => n = 38
  | logoutRequest, n | clientHeartbeat, n => n = 10
  | cancelOrder, n => n = 31 ∨ n = 35
  | newOrderCross, n => 47 ≤ n

theorem sized_of_need? (h : k.need? bytes = some n) : k.Sized n := by
  cases k with
  | loginRequest | logoutRequest | clientHeartbeat => exact (Option.some.inj h).symm
  | cancelOrder =>
    obtain ⟨bitmap, -, hn⟩ := Option.bind_eq_some_iff.1 h
    rw [← Option.some.inj hn]
    unfold Kind.Sized
    cases bitmap.testBit 0 <;> simp
  | newOrderCross =>
    obtain ⟨bitmap, -, hn⟩ := Option.bind_eq_some_iff.1 h
    obtain ⟨count, -, hn⟩ := Option.bind_eq_some_iff.1 hn
    rw [← Option.some.inj hn]
    unfold Kind.Sized
    omega

/-- **No two kinds share a size,** but for the two that are a preamble
only. -/
theorem kind_of_sized {k' : Kind} (h : k.Sized n) (h' : k'.Sized n) :
    k = k' ∨ k = .logoutRequest ∧ k' = .clientHeartbeat ∨
      k = .clientHeartbeat ∧ k' = .logoutRequest := by
  cases k <;> cases k' <;> simp only [Kind.Sized] at h h' <;> first | omega | simp

/-! ## Altered messages -/

/-- A message has a preamble. -/
theorem Complete.ten_le (h : Complete k bytes n) : 10 ≤ n ∧ 10 ≤ bytes.length :=
  ⟨preambleSize_le_need h.need, Nat.le_trans (preambleSize_le_need h.need) h.there⟩

/-- **Another length:** the message is as long as it was, and announces
another. -/
theorem Complete.decode_patch_length (h : Complete k bytes n)
    (hlength : numberAt? bytes 2 2 = some (n - 2)) (hlen : new.length = 2)
    (hne : new ≠ slice bytes 2 2) :
    Message.decode (M := k.Record) (patch bytes 2 new) = .error .badValue := by
  obtain ⟨-, hten⟩ := h.ten_le
  have hthere : 2 + new.length ≤ bytes.length := by omega
  have hcomplete : Complete k (patch bytes 2 new) n := {
    announces := h.announces.patch hthere (by omega)
    defined := fun wrong => h.defined ((reserved_patch_iff hthere (by omega)).1 wrong)
    need := (need?_patch k hthere (by omega)).trans h.need
    there := by
      rw [length_patch hthere]
      exact h.there }
  have hself := numberAt?_patch_self hthere
  have hother := numberAt?_ne_load hthere (hlen ▸ hne)
  rw [hlen] at hself hother
  refine hcomplete.decode_of_ne ?_
  rw [hself, ← hlength]
  exact hother.symm

/-- With another type the bytes are announced as no message of the kind. -/
theorem not_announces_patch {type : UInt8} (hthere : 5 ≤ bytes.length)
    (h : Announces k bytes) (hne : [type] ≠ slice bytes 4 1) :
    ¬ Announces k (patch bytes 4 [type]) := by
  intro hagain
  have hself := slice_patch [type] (show 4 ≤ bytes.length by omega)
  have htype := (announces_iff_slice.1 hagain).2
  exact hne ((hself.symm.trans htype).trans (announces_iff_slice.1 h).2.symm)

/-- **Another type** is told at once. -/
theorem Complete.decode_patch_type (h : Complete k bytes n) {type : UInt8}
    (hne : [type] ≠ slice bytes 4 1) :
    Message.decode (M := k.Record) (patch bytes 4 [type]) = .error .badValue := by
  obtain ⟨-, hten⟩ := h.ten_le
  have hthere : 5 ≤ bytes.length := by omega
  have hmarker : slice (patch bytes 4 [type]) 0 2 = [0xBA, 0xBA] := by
    rw [slice_patch_of_le (by omega) (by omega)]
    exact h.announces.marker
  refine (judged_decode k _).eq_badValue_iff.2 (.type hmarker ?_ fun htype => ?_)
  · rwa [length_patch hthere]
  · exact not_announces_patch hthere h.announces hne ⟨hmarker, htype⟩

/-- A message with the type of another kind is complete as that where it is as
long as that needs. -/
theorem Complete.patch_type (h : Complete k bytes n) {k' : Kind}
    (hneed : k'.need? bytes = some n) (hdefined : ¬ k'.Reserved bytes) :
    Complete k' (patch bytes 4 [Message.type k'.Record]) n := by
  obtain ⟨-, hten⟩ := h.ten_le
  have hone : [Message.type k'.Record].length = 1 := rfl
  have hthere : 4 + [Message.type k'.Record].length ≤ bytes.length := by omega
  refine ⟨announces_iff_slice.2 ⟨?_, slice_patch _ (by omega)⟩, fun wrong => ?_, ?_, ?_⟩
  · rw [slice_patch_of_le (by omega) (by omega)]
    exact h.announces.marker
  · exact hdefined ((reserved_patch_iff hthere (by omega)).1 wrong)
  · exact (need?_patch k' hthere (by omega)).trans hneed
  · rw [length_patch hthere]
    exact h.there

/-- **Another type is delivered** where both kinds are a preamble only, and
nowhere else. -/
theorem Complete.dispatch_patch_type (h : Complete k bytes n)
    (hlength : numberAt? bytes 2 2 = some (n - 2)) {type : UInt8}
    (hne : [type] ≠ slice bytes 4 1) (listener : Family.orderEntry.Listener) :
    (∃ taken, (Family.orderEntry.dispatch listener (patch bytes 4 [type])).outcome = .ok taken) ↔
      k = .logoutRequest ∧ type = ClientHeartbeat.typeByte ∨
      k = .clientHeartbeat ∧ type = LogoutRequest.typeByte := by
  obtain ⟨hmin, hten⟩ := h.ten_le
  have hone : [type].length = 1 := rfl
  have hthere : 4 + [type].length ≤ bytes.length := by omega
  have hsame : numberAt? (patch bytes 4 [type]) 2 2 = some (n - 2) :=
    (numberAt?_patch hthere (.inl (by decide))).trans hlength
  have hdelivered : ∀ k' : Kind, Complete k' (patch bytes 4 [type]) n →
      ∃ taken,
        (Family.orderEntry.dispatch listener (patch bytes 4 [type])).outcome = .ok taken := by
    intro k' hcomplete
    obtain ⟨record, hdecode⟩ := exists_decode_iff_complete.2 ⟨hcomplete, hsame⟩
    exact ⟨n, congrArg Family.Delivery.outcome
      (Family.dispatch_of_decode (f := .orderEntry) hdecode)⟩
  constructor
  · rintro ⟨taken, hdispatch⟩
    obtain ⟨(k' : Kind), record, hdecode⟩ := Family.exists_decode_of_dispatch hdispatch
    obtain ⟨hcomplete, hannounced⟩ := exists_decode_iff_complete.1 ⟨record, hdecode⟩
    have htype : type = Message.type k'.Record := by
      have hself := slice_patch [type] (show 4 ≤ bytes.length by omega)
      exact List.singleton_inj.1 (hself.symm.trans (announces_iff_slice.1 hcomplete.announces).2)
    -- the length is not altered, so the kind it was and the kind it has become
    -- are of one size
    obtain rfl : n = taken := by
      obtain ⟨hmin', -⟩ := hcomplete.ten_le
      have heq := Option.some.inj (hannounced.symm.trans hsame)
      omega
    rcases kind_of_sized (sized_of_need? h.need) (sized_of_need? hcomplete.need) with
      rfl | ⟨rfl, rfl⟩ | ⟨rfl, rfl⟩
    · exact absurd hcomplete.announces (not_announces_patch (by omega) h.announces hne)
    · exact .inl ⟨rfl, htype⟩
    · exact .inr ⟨rfl, htype⟩
  · rintro (⟨rfl, rfl⟩ | ⟨rfl, rfl⟩)
    · exact hdelivered .clientHeartbeat (h.patch_type h.need (not_reserved_of_bitmap? rfl))
    · exact hdelivered .logoutRequest (h.patch_type h.need (not_reserved_of_bitmap? rfl))

/-! ## Altered counts -/

section Count

variable {presence : Presence .w16} {count : UInt8}

/-- With another count a cross needs as many legs more, or fewer. -/
theorem need?_patch_count (hthere : countOffset presence + [count].length ≤ bytes.length)
    (hbitmap : Kind.newOrderCross.bitmap? bytes =
      some (ByteOrder.little.load (Field.bytes .little presence))) :
    Kind.newOrderCross.need? (patch bytes (countOffset presence) [count]) =
      some (countOffset presence + 1 + count.toNat * CrossGroup.size presence) := by
  -- the bitmap stands in front of the count, and says what it did
  have hsame := (bitmap?_patch .newOrderCross hthere (.inr (Nat.le_add_right _ _))).trans hbitmap
  have hself : numberAt? (patch bytes (countOffset presence) [count]) (countOffset presence) 1 =
      some (ByteOrder.little.load [count]) := numberAt?_patch_self hthere
  rw [need?_of_presence hsame, hself, ByteOrder.load_singleton]
  rfl

/-- **Another count** makes a cross longer or shorter than it announces to
be. -/
theorem Complete.decode_patch_count (h : Complete .newOrderCross bytes n)
    (hlength : numberAt? bytes 2 2 = some (n - 2))
    (hbitmap : Kind.newOrderCross.bitmap? bytes =
      some (ByteOrder.little.load (Field.bytes .little presence)))
    (hne : [count] ≠ slice bytes (countOffset presence) 1) :
    Message.decode (M := NewOrderCross) (patch bytes (countOffset presence) [count]) =
      if countOffset presence + 1 + count.toNat * CrossGroup.size presence ≤ bytes.length then
        .error .badValue
      else .error .shortBuffer := by
  obtain ⟨found, hfound, hn⟩ := Option.bind_eq_some_iff.1
    ((need?_of_presence hbitmap).symm.trans h.need)
  replace hn := Option.some.inj hn
  have hbehind : 46 ≤ countOffset presence := Nat.le_add_right _ _
  have hthere : countOffset presence + [count].length ≤ bytes.length :=
    (Option.ite_none_right_eq_some.1 hfound).1
  have hneed := need?_patch_count hthere hbitmap
  have hannounces := h.announces.patch hthere (.inr (by omega))
  have hdefined : ¬ Kind.newOrderCross.Reserved (patch bytes (countOffset presence) [count]) :=
    fun wrong => h.defined ((reserved_patch_iff hthere (.inr hbehind)).1 wrong)
  split
  · next hle =>
    have hagain : Complete .newOrderCross (patch bytes (countOffset presence) [count])
        (countOffset presence + 1 + count.toNat * CrossGroup.size presence) :=
      ⟨hannounces, hdefined, hneed, by rwa [length_patch hthere]⟩
    have hsame : numberAt? (patch bytes (countOffset presence) [count]) 2 2 = some (n - 2) :=
      (numberAt?_patch hthere (.inl (by omega))).trans hlength
    have hother : count.toNat ≠ found := by
      rintro rfl
      exact numberAt?_ne_load hthere hne (ByteOrder.load_singleton count ▸ hfound)
    -- a leg takes bytes, so as many bytes are as many legs
    have hsize : 0 < CrossGroup.size presence :=
      Nat.lt_of_lt_of_le (by decide) (Nat.le_add_right _ _)
    refine hagain.decode_of_ne (k := .newOrderCross) fun heq => hother ?_
    have hlegs : count.toNat * CrossGroup.size presence = found * CrossGroup.size presence := by
      have := Option.some.inj (hsame.symm.trans heq)
      omega
    exact Nat.eq_of_mul_eq_mul_right hsize hlegs
  · next hlt =>
    refine decode_of_lt (k := .newOrderCross) hannounces hdefined hneed ?_
    rw [length_patch hthere]
    omega

end Count

/-- **A message in which one number is altered is not accepted as what it
was.** Under any other length it is rejected. Under any other type it is
rejected as a message of its kind, and delivered as one of another kind
only where a logout is turned into a heartbeat or a heartbeat into a
logout. A cross under any other count is rejected where the bytes hold all
its legs, and lacks bytes where they do not. -/
theorem altered_not_accepted :
    (∀ (k : Kind) (bytes : Bytes) (record : k.Record) (n : Nat),
      Message.decode bytes = .ok (record, n) →
      (∀ length : Bytes, length.length = 2 → length ≠ slice bytes 2 2 →
        Message.decode (M := k.Record) (patch bytes 2 length) = .error .badValue) ∧
      ∀ type : UInt8, [type] ≠ slice bytes 4 1 →
        Message.decode (M := k.Record) (patch bytes 4 [type]) = .error .badValue ∧
        ∀ listener : Family.orderEntry.Listener,
          (∃ taken, (Family.orderEntry.dispatch listener (patch bytes 4 [type])).outcome =
            .ok taken) ↔
          k = .logoutRequest ∧ type = ClientHeartbeat.typeByte ∨
          k = .clientHeartbeat ∧ type = LogoutRequest.typeByte) ∧
    ∀ (bytes : Bytes) (r : NewOrderCross) (n : Nat), Message.decode bytes = .ok (r, n) →
      ∀ count : UInt8, [count] ≠ slice bytes (countOffset r.presence) 1 →
        Message.decode (M := NewOrderCross) (patch bytes (countOffset r.presence) [count]) =
          if countOffset r.presence + 1 + count.toNat * CrossGroup.size r.presence ≤ bytes.length
          then .error .badValue
          else .error .shortBuffer := by
  constructor
  · intro k bytes record n hdecode
    obtain ⟨hcomplete, hlength⟩ := exists_decode_iff_complete.1 ⟨record, hdecode⟩
    refine ⟨fun length hlen hne => hcomplete.decode_patch_length hlength hlen hne,
      fun type hne => ⟨hcomplete.decode_patch_type hne, fun listener => ?_⟩⟩
    exact hcomplete.dispatch_patch_type hlength hne listener
  · intro bytes r n hdecode count hne
    obtain ⟨hcomplete, hlength⟩ :=
      (exists_decode_iff_complete (k := .newOrderCross)).1 ⟨r, hdecode⟩
    refine hcomplete.decode_patch_count hlength ?_ hne
    rw [load_bytes_presence]
    exact (NewOrderCross.standsIn_of_decode hdecode).presence

/-- A heartbeat, and nothing behind it. -/
def loneHeartbeat : Bytes := [0xBA, 0xBA, 8, 0, 0x03, 0, 0, 0, 0, 0]

/-- A cross without legs, and bytes enough behind it for one. -/
def leglessCross : Bytes := [0xBA, 0xBA, 45, 0, 0x41] ++ List.replicate 67 0

theorem altered_not_accepted_leglessCross :
    Message.decode loneHeartbeat = .ok (({} : ClientHeartbeat), 10) ∧
      Message.decode (M := ClientHeartbeat) (patch loneHeartbeat 2 [7, 1]) = .error .badValue ∧
      (∃ taken, (Family.orderEntry.dispatch (fun _ => true)
        (patch loneHeartbeat 4 [0x02])).outcome = .ok taken) ∧
      Message.decode leglessCross = .ok (({} : NewOrderCross), 47) ∧
      Message.decode (M := NewOrderCross) (patch leglessCross 46 [1]) = .error .badValue ∧
      Message.decode (M := NewOrderCross) (patch leglessCross 46 [2]) = .error .shortBuffer := by
  obtain ⟨hmessages, hcounts⟩ := altered_not_accepted
  have hheartbeat : Message.decode loneHeartbeat = .ok (({} : ClientHeartbeat), 10) := rfl
  have hcross : Message.decode leglessCross = .ok (({} : NewOrderCross), 47) := by cbv
  obtain ⟨hlength, htype⟩ := hmessages .clientHeartbeat _ _ _ hheartbeat
  obtain ⟨-, hdelivered⟩ := htype 0x02 (by decide)
  exact ⟨hheartbeat, hlength [7, 1] rfl (by decide),
    (hdelivered fun _ => true).2 (.inr ⟨rfl, rfl⟩), hcross,
    hcounts _ _ _ hcross 1 (by decide), hcounts _ _ _ hcross 2 (by decide)⟩

end OrderEntry

end TradeWire
