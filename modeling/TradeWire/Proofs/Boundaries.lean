import TradeWire.Proofs.Capacity
import TradeWire.Proofs.Resumption
/-!
# Boundaries — stepping over a message and decoding it

An order-entry message can be passed in two ways: decoded, up to where
its fields end, or stepped over, by the length it announces. Both end at
the same byte. So a message whose type is overwritten by one of no known
kind costs a walk that message and nothing else.

The two walks are over streams that differ in one byte, and the argument
follows how far each step looks. A message looks at no byte but its own.
A frame of no known kind looks at its first five, and these can be more
than it announces, so that the last of them belong to what follows. But
the least it announces is its marker, and the byte that is overwritten
has four of its message in front of it: no earlier step sees it
(`dispatch_set_behind`).
-/

namespace TradeWire

open Decoder Message

/-! ## The type and the length of an order-entry message -/

namespace OrderEntry

variable {bytes : Bytes}

/-- Where a type is seen, any other can be put. -/
theorem peekType_set {found : UInt8} {m : Nat} (h : peekType.decode bytes = .ok (found, m))
    (type : UInt8) : peekType.decode (bytes.set 4 type) = .ok (type, 5) := by
  obtain ⟨-, length, htake⟩ := peekType_eq_ok_iff.1 h
  refine peekType_eq_ok_iff.2 ⟨rfl, length, ?_⟩
  have hfront : (Field.bytes .little startOfMessage ++ Field.bytes .little length).length = 4 := by
    simp only [List.length_append, Field.length_bytes]
    rfl
  rw [List.take_set, htake, List.set_append_right _ _ (Nat.le_of_eq hfront), hfront,
    Field.bytes_uint8, Field.bytes_uint8]
  rfl

/-- The length stands in front of the type. -/
theorem declaredSize_set {i : Nat} (hi : 4 ≤ i) (type : UInt8) :
    declaredSize (bytes.set i type) = declaredSize bytes := by
  have hmarker : markerSize = 2 := rfl
  have hdrop : (bytes.set i type).drop markerSize =
      (bytes.drop markerSize).set (i - markerSize) type := by
    rw [List.drop_set, if_neg (by omega)]
  rw [declaredSize, hdrop, List.take_set_of_le (by omega), declaredSize]

end OrderEntry

namespace Family

/-! ## How far a delivery looks -/

section

variable {f : Family} {w : Walk} {listener : f.Listener} {bytes other : Bytes}

/-- **A message looks at no byte but its own.** -/
theorem dispatch_congr_message {n : Nat} (h : (f.dispatch listener bytes).outcome = .ok n)
    (htake : other.take n = bytes.take n) :
    f.dispatch listener other = f.dispatch listener bytes := by
  obtain ⟨k, record, hdecode⟩ := exists_decode_of_dispatch h
  have hother : f.decode k other = .ok (record, n) :=
    decode_congr_take (LawfulMessage.frugal_refill blank) hdecode htake
  rw [dispatch_of_decode hdecode, dispatch_of_decode hother]

/-- A message of no known kind looks at its type, and then at how many
bytes there are. -/
theorem dispatch_congr_unknown {type : UInt8} {m : Nat}
    (hpeek : f.peekType.decode bytes = .ok (type, m)) (hkind : f.kindOf? type = none)
    (htake : other.take m = bytes.take m) (hlen : other.length = bytes.length) :
    f.dispatch listener other = f.dispatch listener bytes := by
  have hother : f.peekType.decode other = .ok (type, m) :=
    decode_congr_take f.frugal_peekType hpeek htake
  simp only [dispatch, hpeek, hother, hkind, hlen]

/-- A walk never looks back. -/
theorem walkFrom_congr {offset : Nat} (hdrop : other.drop offset = bytes.drop offset) :
    f.walkFrom w listener other offset = f.walkFrom w listener bytes offset := by
  have hwithin : ∀ {start : Nat}, other.drop start = bytes.drop start →
      (start < other.length ↔ start < bytes.length) := by
    intro start h
    have hlen := congrArg List.length h
    simp only [List.length_drop] at hlen
    omega
  induction offset using walkFrom.induct f w listener bytes with
  | case1 offset hlt delivery n hn ih =>
    have hbehind : other.drop (offset + n) = bytes.drop (offset + n) := by
      rw [← List.drop_drop, hdrop, List.drop_drop]
    have hn' : f.stride? w (other.drop offset) (f.dispatch listener (other.drop offset)).outcome =
        some n := by
      rw [hdrop]
      exact hn
    rw [walkFrom_of_some f hlt hn, walkFrom_of_some f ((hwithin hdrop).2 hlt) hn', hdrop,
      ih hbehind]
  | case2 offset hlt delivery hnone =>
    have hnone' : f.stride? w (other.drop offset)
        (f.dispatch listener (other.drop offset)).outcome = none := by
      rw [hdrop]
      exact hnone
    rw [walkFrom_of_none f hlt hnone, walkFrom_of_none f ((hwithin hdrop).2 hlt) hnone', hdrop]
  | case3 offset hle =>
    have hle' : ¬ offset < other.length := fun hlt => hle ((hwithin hdrop).1 hlt)
    rw [walkFrom_of_le f (Nat.le_of_not_lt hle), walkFrom_of_le f (Nat.le_of_not_lt hle')]

end

/-! ## One byte of a stream of order entry -/

variable {listener : orderEntry.Listener} {bytes : Bytes} {n : Nat} {type : UInt8}

/-- **A message ends where it announces to end,** and has a preamble. -/
theorem eq_declaredSize_of_dispatch (h : (orderEntry.dispatch listener bytes).outcome = .ok n) :
    n = OrderEntry.declaredSize bytes ∧ OrderEntry.preambleSize ≤ n ∧ n ≤ bytes.length := by
  obtain ⟨k, record, hdecode⟩ := exists_decode_of_dispatch h
  obtain ⟨hn, -, hlayout⟩ := decode_eq_ok_iff.1 hdecode
  obtain ⟨hmin, hannounced⟩ := announced_of_layout hlayout
  have hpreamble : OrderEntry.preambleSize = 10 := rfl
  have hmarker : OrderEntry.markerSize = 2 := rfl
  rw [List.length_take_of_le hn] at hmin hannounced
  rw [List.drop_take, List.take_take, Nat.min_eq_left (by omega)] at hannounced
  exact ⟨by rw [OrderEntry.declaredSize, hannounced]; omega, hmin, hn⟩

/-- **No step sees a byte that stands four behind its end.** A message
sees none behind its end at all. Another frame is at least its marker,
and sees five bytes. -/
theorem dispatch_set_behind {i : Nat}
    (h : orderEntry.stride? .skipUnknown bytes (orderEntry.dispatch listener bytes).outcome =
      some n) (hi : n + 4 ≤ i) (type : UInt8) :
    orderEntry.dispatch listener (bytes.set i type) = orderEntry.dispatch listener bytes ∧
    orderEntry.stride? .skipUnknown (bytes.set i type)
      (orderEntry.dispatch listener bytes).outcome = some n := by
  have hfront : ∀ {size : Nat}, size ≤ i → (bytes.set i type).take size = bytes.take size :=
    fun hle => List.take_set_of_le hle
  cases houtcome : (orderEntry.dispatch listener bytes).outcome with
  | ok consumed =>
    rw [houtcome] at h
    obtain rfl : consumed = n := by simpa [stride?] using h
    exact ⟨dispatch_congr_message houtcome (hfront (by omega)), h⟩
  | error fault =>
    rw [houtcome] at h
    cases fault with
    | shortBuffer => cases h
    | badValue => cases h
    | unknownType =>
      have hsize : OrderEntry.declaredSize bytes = n := by simpa [stride?, unknownSize] using h
      have hmarker : OrderEntry.markerSize ≤ n := hsize ▸ Nat.le_add_right _ _
      have htwo : OrderEntry.markerSize = 2 := rfl
      obtain ⟨found, m, hpeek, hkind⟩ := dispatch_eq_unknownType_iff.1 houtcome
      obtain ⟨rfl, -⟩ := OrderEntry.peekType_eq_ok_iff.1 hpeek
      refine ⟨dispatch_congr_unknown hpeek hkind (hfront (by omega)) (List.length_set ..), ?_⟩
      have hsame : OrderEntry.declaredSize (bytes.set i type) = n :=
        (OrderEntry.declaredSize_set (by omega) type).trans hsize
      simp [stride?, unknownSize, hsame]

/-- **A message whose type is overwritten** is of no known kind, and is
stepped over to where it ended. -/
theorem dispatch_set_type (h : (orderEntry.dispatch listener bytes).outcome = .ok n)
    (htype : ∀ k, orderEntry.typeOf k ≠ type) :
    orderEntry.dispatch listener (bytes.set 4 type) = {
      outcome := .error .unknownType
      events := []
      log := [.unknownType orderEntry type bytes.length] } ∧
    orderEntry.stride? .skipUnknown (bytes.set 4 type) (.error .unknownType) = some n := by
  obtain ⟨k, record, hdecode⟩ := exists_decode_of_dispatch h
  obtain ⟨m, hpeek⟩ := peekType_of_decode hdecode
  have hset : orderEntry.peekType.decode (bytes.set 4 type) = .ok (type, 5) :=
    OrderEntry.peekType_set hpeek type
  have hsize : OrderEntry.declaredSize (bytes.set 4 type) = n :=
    (OrderEntry.declaredSize_set (Nat.le_refl 4) type).trans (eq_declaredSize_of_dispatch h).1.symm
  refine ⟨?_, by simp [stride?, unknownSize, hsize]⟩
  simp only [dispatch, hset, kindOf?_eq_none_iff.2 htype, List.length_set]

/-! ## The walk over it -/

variable {offset : Nat}

/-- A walk that begins at a message whose type is overwritten steps over
it, and goes on as it did. -/
theorem walkFrom_set_type (hlt : offset < bytes.length)
    (h : (orderEntry.dispatch listener (bytes.drop offset)).outcome = .ok n)
    (htype : ∀ k, orderEntry.typeOf k ≠ type) :
    offset + 4 < bytes.length ∧
    orderEntry.walkFrom .skipUnknown listener (bytes.set (offset + 4) type) offset =
      (orderEntry.walkFrom .skipUnknown listener bytes (offset + n)).behind [⟨offset, {
        outcome := .error .unknownType
        events := []
        log := [.unknownType orderEntry type (bytes.length - offset)] }⟩] := by
  obtain ⟨-, hmin, hle⟩ := eq_declaredSize_of_dispatch h
  have hpreamble : OrderEntry.preambleSize = 10 := rfl
  rw [List.length_drop] at hle
  have hhere : (bytes.set (offset + 4) type).drop offset = (bytes.drop offset).set 4 type := by
    rw [List.drop_set, if_neg (by omega), Nat.add_sub_cancel_left]
  have hbehind : (bytes.set (offset + 4) type).drop (offset + n) = bytes.drop (offset + n) :=
    List.drop_set_of_lt (by omega)
  obtain ⟨hdispatch, hstride⟩ := dispatch_set_type h htype
  rw [← hhere] at hdispatch hstride
  refine ⟨by omega, ?_⟩
  rw [walkFrom_of_some orderEntry (by rwa [List.length_set]) (by rw [hdispatch]; exact hstride),
    hdispatch, walkFrom_congr hbehind, List.length_drop]
  rfl

/-- And a walk that begins at a step in front of it makes this step, and
goes on. -/
theorem walkFrom_set_ahead (hlt : offset < bytes.length)
    (h : orderEntry.stride? .skipUnknown (bytes.drop offset)
      (orderEntry.dispatch listener (bytes.drop offset)).outcome = some n)
    {i : Nat} (hi : offset + n + 4 ≤ i) (type : UInt8) :
    orderEntry.walkFrom .skipUnknown listener (bytes.set i type) offset =
      (orderEntry.walkFrom .skipUnknown listener (bytes.set i type) (offset + n)).behind
        [⟨offset, orderEntry.dispatch listener (bytes.drop offset)⟩] := by
  have hhere : (bytes.set i type).drop offset = (bytes.drop offset).set (i - offset) type := by
    rw [List.drop_set, if_neg (by omega)]
  obtain ⟨hdispatch, hstride⟩ := dispatch_set_behind h (by omega : n + 4 ≤ i - offset) type
  rw [← hhere] at hdispatch hstride
  rw [walkFrom_of_some orderEntry (by rwa [List.length_set]) (by rw [hdispatch]; exact hstride),
    hdispatch]
  rfl

/-- **A walk over a message whose type is overwritten** makes the same
steps but for that one. -/
theorem walkFrom_set (htype : ∀ k, orderEntry.typeOf k ≠ type) (offset : Nat)
    (before : List orderEntry.Step) {after : List orderEntry.Step} {step : orderEntry.Step}
    (hok : step.delivery.outcome = .ok n)
    (hsteps : (orderEntry.walkFrom .skipUnknown listener bytes offset).steps =
      before ++ step :: after) :
    offset ≤ step.offset ∧ step.offset + 4 < bytes.length ∧
    orderEntry.walkFrom .skipUnknown listener (bytes.set (step.offset + 4) type) offset = {
      steps := before ++ ⟨step.offset, {
        outcome := .error .unknownType
        events := []
        log := [.unknownType orderEntry type (bytes.length - step.offset)] }⟩ :: after
      final := (orderEntry.walkFrom .skipUnknown listener bytes offset).final } := by
  revert before
  induction offset using walkFrom.induct orderEntry .skipUnknown listener bytes with
  | case1 offset hlt delivery m hm ih =>
    intro before hsteps
    rw [walkFrom_of_some orderEntry hlt hm] at hsteps ⊢
    cases before with
    | nil =>
      obtain ⟨rfl, rfl⟩ := List.cons.inj hsteps
      have hmessage : delivery.outcome = .ok n := hok
      obtain rfl : n = m := by simpa [stride?, hmessage] using hm
      obtain ⟨hinside, hwalk⟩ := walkFrom_set_type hlt hok htype
      exact ⟨Nat.le_refl _, hinside, hwalk⟩
    | cons first before =>
      obtain ⟨rfl, hrest⟩ := List.cons.inj hsteps
      obtain ⟨hle, hinside, hwalk⟩ := ih before hrest
      refine ⟨by omega, hinside, ?_⟩
      rw [walkFrom_set_ahead hlt hm (by omega), hwalk]
      rfl
  | case2 offset hlt delivery hnone =>
    -- a walk does not end with a message
    intro before hsteps
    rw [walkFrom_of_none orderEntry hlt hnone] at hsteps
    obtain ⟨rfl, hstep⟩ | ⟨_, -, hnil⟩ := List.cons_eq_append_iff.1 hsteps
    · obtain ⟨rfl, -⟩ := List.cons.inj hstep
      have hmessage : delivery.outcome = .ok n := hok
      simp [stride?, hmessage] at hnone
    · simp at hnil
  | case3 offset hle =>
    intro before hsteps
    rw [walkFrom_of_le orderEntry (Nat.le_of_not_lt hle)] at hsteps
    simp at hsteps

/-- **Stepping over a message and decoding it end at the same byte.** An
order-entry delivery that succeeds consumes the marker and as many bytes
as the number behind it says. So a walk that steps over unknown frames
keeps to its boundaries where messages become such frames: where it
decoded a message, and the message's type is overwritten by one of no
known kind, the walk makes the same steps with the same outcomes and
events, and ends at the same byte, but that it finds an unknown frame in
the place of that message. -/
theorem skip_and_decode_agree (listener : orderEntry.Listener) (bytes : Bytes) :
    (∀ n : Nat, (orderEntry.dispatch listener bytes).outcome = .ok n →
      n = 2 + ByteOrder.little.load ((bytes.drop 2).take 2)) ∧
    ∀ (before after : List orderEntry.Step) (step : orderEntry.Step) (n : Nat) (type : UInt8),
      (orderEntry.walk .skipUnknown listener bytes).steps = before ++ step :: after →
      step.delivery.outcome = .ok n → (∀ k, orderEntry.typeOf k ≠ type) →
        step.offset + 4 < bytes.length ∧
        orderEntry.walk .skipUnknown listener (bytes.set (step.offset + 4) type) = {
          steps := before ++ ⟨step.offset, {
            outcome := .error .unknownType
            events := []
            log := [.unknownType orderEntry type (bytes.length - step.offset)] }⟩ :: after
          final := (orderEntry.walk .skipUnknown listener bytes).final } := by
  constructor
  · intro n h
    exact (eq_declaredSize_of_dispatch h).1
  · intro before after step n type hsteps hok htype
    exact (walkFrom_set htype 0 before hok hsteps).2

/-- A frame that announces no more than its length, so that its type is
the first byte of the heartbeat behind it. -/
def overlapping : Bytes := [0xBA, 0xBA, 2, 0] ++ [0xBA, 0xBA, 8, 0, 3, 0, 0, 0, 0, 0]

theorem skip_and_decode_agree_overlapping :
    (orderEntry.dispatch orderEntry.everything (overlapping.drop 4)).outcome = .ok 10 ∧
      ByteOrder.little.load (((overlapping.drop 4).drop 2).take 2) = 8 ∧
      (orderEntry.walk .skipUnknown orderEntry.everything overlapping).account =
        ([(0, .error .unknownType, []),
          (4, .ok 10, [⟨.clientHeartbeat, ({} : OrderEntry.ClientHeartbeat)⟩])], 14) ∧
      (orderEntry.walk .skipUnknown orderEntry.everything (overlapping.set 8 0x7F)).account =
        ([(0, .error .unknownType, []), (4, .error .unknownType, [])], 14) := by
  let frame : orderEntry.Step := ⟨0, {
    outcome := .error .unknownType, events := [], log := [.unknownType orderEntry 0xBA 14] }⟩
  let heartbeat : orderEntry.Step := ⟨4, {
    outcome := .ok 10
    events := [⟨.clientHeartbeat, ({} : OrderEntry.ClientHeartbeat)⟩]
    log := [.dispatched "ClientHeartbeat" 10] }⟩
  have hwalk : orderEntry.walk .skipUnknown orderEntry.everything overlapping =
      { steps := [frame, heartbeat], final := 14 } := by cbv
  have hunknown : ∀ k, orderEntry.typeOf k ≠ 0x7F := by rintro ⟨⟩ <;> decide
  have hok : (orderEntry.dispatch orderEntry.everything (overlapping.drop 4)).outcome = .ok 10 :=
    rfl
  obtain ⟨hannounced, -⟩ := skip_and_decode_agree orderEntry.everything (overlapping.drop 4)
  have hlength := hannounced 10 hok
  obtain ⟨-, hset⟩ := skip_and_decode_agree orderEntry.everything overlapping
  have hsteps : (orderEntry.walk .skipUnknown orderEntry.everything overlapping).steps =
      [frame] ++ heartbeat :: [] := by rw [hwalk]; rfl
  obtain ⟨-, hsame⟩ := hset [frame] [] heartbeat 10 0x7F hsteps rfl hunknown
  rw [hwalk] at hsame ⊢
  refine ⟨hok, by omega, rfl, ?_⟩
  have haccount := congrArg Trace.account hsame
  exact haccount.trans rfl

end Family

end TradeWire
