import Mathlib.Data.List.TakeWhile
import TradeWire.Proofs.Capacity
import TradeWire.Proofs.Resumption
/-!
# Streams — what a walk makes of messages and unknown frames

A well-formed stream is messages of the family and frames of no known
kind, one behind another. A delivery at the start of an item sees that
item and nothing behind it, and what it makes of the item leads exactly
to the next one: a message by the bytes it takes, an order-entry frame by
the length it announces, whatever its body holds. So a walk that steps
over unknown frames makes one step for each item, and one that stops
there makes the same steps up to the first of them.
-/

namespace TradeWire

/-! ## What a stream is made of -/

/-- **An order-entry frame of no known kind.** Its length counts itself,
the type and the body; the body can be any bytes. -/
structure OrderEntry.UnknownFrame where
  /-- The low byte of the length announced. -/
  low : UInt8
  /-- The high byte of the length announced. -/
  high : UInt8
  type : UInt8
  body : Bytes
  announced : low.toNat + 256 * high.toNat = 3 + body.length
  unknown : ∀ k : OrderEntry.Kind, Message.type k.Record ≠ type

/-- **A tag that announces no kind of the feed.** -/
structure Feed.UnknownTag where
  tag : UInt8
  unknown : ∀ k : Feed.Kind, Message.type k.Record ≠ tag

namespace Family

open Decoder Message LawfulMessage

/-- The frames of no known kind. -/
def Unknown : Family → Type
  | orderEntry => OrderEntry.UnknownFrame
  | feed => Feed.UnknownTag

/-- The bytes of a frame of no known kind. -/
def unknownBytes : (f : Family) → f.Unknown → Bytes
  | orderEntry, (frame : OrderEntry.UnknownFrame) =>
    [0xBA, 0xBA, frame.low, frame.high, frame.type] ++ frame.body
  | feed, (frame : Feed.UnknownTag) => [frame.tag]

/-- **One item of a stream.** -/
inductive Item (f : Family) where
  /-- A record that keeps the rules, encoded. -/
  | message (k : f.Kind) (record : f.Record k) (encodable : Message.Encodable record)
  /-- A frame of no known kind. -/
  | unknown (frame : f.Unknown)

namespace Item

variable {f : Family}

/-- The bytes of an item. -/
def bytes : f.Item → Bytes
  | message _ record _ => (toBytes record).toOption.getD []
  | unknown frame => f.unknownBytes frame

/-- What the listener sees of an item: what was consumed, or why nothing
was, and the record handed over. -/
def handed : f.Item → Except Fault Nat × List f.Event
  | message k record _ => (.ok (encodedLen record), [⟨k, canonical record⟩])
  | unknown _ => (.error .unknownType, [])

/-- Whether an item is a message. -/
def isMessage : f.Item → Bool
  | message _ _ _ => true
  | unknown _ => false

/-- Whether a walk goes on behind an item. -/
def passed (w : Walk) (item : f.Item) : Bool := item.isMessage || w = .skipUnknown

/-- What the listener sees of items one behind another, from an offset:
one step for each, at its first byte. -/
def accounts : Nat → List f.Item → List (Nat × Except Fault Nat × List f.Event)
  | _, [] => []
  | offset, item :: items => (offset, item.handed) :: accounts (offset + item.bytes.length) items

/-! ## One item -/

/-- The bytes of a message are the layout of its record. -/
theorem layout?_eq (k : f.Kind) (record : f.Record k) (h : Message.Encodable record) :
    layout? record = some (message k record h).bytes ∧
      (message k record h).bytes.length = encodedLen record := by
  obtain ⟨chunk, hlayout, hlen⟩ := exists_layout h
  have htoBytes := (toBytes_eq_ok_iff record chunk).2 hlayout
  have hbytes : (message k record h).bytes = chunk := by
    simp only [bytes, htoBytes, Except.toOption, Option.getD_some]
  rw [hbytes]
  exact ⟨hlayout, hlen⟩

/-- Which is what encoding it writes. -/
theorem toBytes_eq (k : f.Kind) (record : f.Record k) (h : Message.Encodable record) :
    toBytes record = .ok (message k record h).bytes :=
  (toBytes_eq_ok_iff record _).2 (layout?_eq k record h).1

end Item

/-- The type of a frame of no known kind is seen, whatever stands behind
it. -/
theorem peekType_unknown {f : Family} (frame : f.Unknown) (rest : Bytes) :
    ∃ type m, f.peekType.decode (f.unknownBytes frame ++ rest) = .ok (type, m) ∧
      f.kindOf? type = none := by
  cases f with
  | orderEntry =>
    obtain ⟨low, high, type, body, -, hunknown⟩ : OrderEntry.UnknownFrame := frame
    refine ⟨type, 5, ?_, kindOf?_eq_none_iff.2 hunknown⟩
    -- the length can be any: it is the two bytes that stand there
    let length : UInt16 := Field.decode .little ⟨[low, high], rfl⟩
    have hlength : Field.bytes .little length = [low, high] := by
      simp only [Field.bytes, length, Field.encode_decode]
    have hmarker : Field.bytes .little OrderEntry.startOfMessage = [0xBA, 0xBA] := rfl
    refine (Decoder.decode_eq_ok_iff OrderEntry.frugal_peekType _ _ _).2 ⟨?_, ?_⟩
    · simp only [unknownBytes, List.length_append, List.length_cons]
      omega
    · rw [OrderEntry.reads_peekType]
      refine ⟨length, ?_⟩
      rw [hmarker, hlength, Field.bytes_uint8]
      rfl
  | feed =>
    obtain ⟨tag, hunknown⟩ : Feed.UnknownTag := frame
    refine ⟨tag, 1, ?_, kindOf?_eq_none_iff.2 hunknown⟩
    refine (Decoder.decode_eq_ok_iff (frugal_peekType feed) _ _ _).2 ⟨?_, ?_⟩
    · simp only [unknownBytes, List.length_append, List.length_cons]
      omega
    · exact (reads_field _ _).2 (Field.bytes_uint8 .big tag).symm

/-- And it is as long as a walk that steps over it takes it to be. -/
theorem unknownSize_unknown {f : Family} (frame : f.Unknown) (rest : Bytes) :
    f.unknownSize (f.unknownBytes frame ++ rest) = (f.unknownBytes frame).length := by
  cases f with
  | orderEntry =>
    obtain ⟨low, high, type, body, hannounced, -⟩ : OrderEntry.UnknownFrame := frame
    have hload : ByteOrder.little.load [low, high] = low.toNat + 256 * high.toNat := rfl
    change OrderEntry.markerSize + ByteOrder.little.load [low, high] = body.length + 5
    rw [hload, hannounced, OrderEntry.markerSize]
    omega
  | feed => rfl

namespace Item

variable {f : Family} {w : Walk}

/-- **A delivery sees the item at the front** and nothing behind it. -/
theorem handed_dispatch (item : f.Item) (rest : Bytes) :
    (f.dispatch f.everything (item.bytes ++ rest)).handed = item.handed := by
  cases item with
  | message k record h =>
    obtain ⟨hlayout, hlen⟩ := layout?_eq k record h
    have hdecode := decode_layout hlayout rest
    rw [dispatch_of_decode hdecode, hlen]
    rfl
  | unknown frame =>
    obtain ⟨type, m, hpeek, hkind⟩ := peekType_unknown frame rest
    have houtcome : (f.dispatch f.everything (f.unknownBytes frame ++ rest)).outcome =
        .error .unknownType := dispatch_eq_unknownType_iff.2 ⟨type, m, hpeek, hkind⟩
    have hevents := events_of_error houtcome
    exact Prod.ext houtcome hevents

/-- **A walk goes on exactly behind the item.** -/
theorem stride?_dispatch (hw : w ≠ .once) (item : f.Item) (rest : Bytes) :
    f.stride? w (item.bytes ++ rest) (f.dispatch f.everything (item.bytes ++ rest)).outcome =
      if item.passed w then some item.bytes.length else none := by
  have houtcome : (f.dispatch f.everything (item.bytes ++ rest)).outcome = item.handed.1 :=
    congrArg Prod.fst (item.handed_dispatch rest)
  rw [houtcome]
  cases item with
  | message k record h =>
    have hlen := (layout?_eq k record h).2
    simp [stride?, handed, passed, isMessage, hw, hlen]
  | unknown frame =>
    have hsize := unknownSize_unknown frame rest
    simp [stride?, handed, passed, isMessage, bytes, hsize]

theorem length_bytes_pos (item : f.Item) : 0 < item.bytes.length := by
  have hskip : Walk.skipUnknown ≠ .once := by decide
  have hstride := item.stride?_dispatch hskip []
  rw [if_pos (by simp [passed])] at hstride
  exact stride?_pos hstride

/-! ## Items one behind another -/

/-- What is handed over along a stream is what its items are. -/
theorem flatMap_accounts (offset : Nat) (items : List f.Item) :
    ((accounts offset items).flatMap fun step => step.2.2) =
      items.flatMap fun item => item.handed.2 := by
  induction items generalizing offset with
  | nil => rfl
  | cons item items ih => rw [accounts, List.flatMap_cons, ih, List.flatMap_cons]

/-- What the listener sees of a walk that goes on: the step, and the walk
from where it leads. -/
theorem account_walkFrom {listener : f.Listener} {stream : Bytes} {offset n : Nat}
    (hlt : offset < stream.length)
    (h : f.stride? w (stream.drop offset) (f.dispatch listener (stream.drop offset)).outcome =
      some n) :
    (f.walkFrom w listener stream offset).account =
      ((offset, (f.dispatch listener (stream.drop offset)).handed) ::
          (f.walkFrom w listener stream (offset + n)).account.1,
        (f.walkFrom w listener stream (offset + n)).account.2) := by
  rw [walkFrom_of_some f hlt h]
  rfl

/-- **A walk along items** makes one step for each that it passes and one
for the first that it does not, where it ends. -/
theorem walkFrom_items (hw : w ≠ .once) (before : Bytes) (items : List f.Item) :
    (f.walkFrom w f.everything (before ++ items.flatMap bytes) before.length).account =
      (accounts before.length (items.take ((items.takeWhile (passed w)).length + 1)),
        before.length + ((items.takeWhile (passed w)).flatMap bytes).length) := by
  induction items generalizing before with
  | nil =>
    rw [List.flatMap_nil, List.append_nil, walkFrom_of_le f (Nat.le_refl _)]
    rfl
  | cons item items ih =>
    have hpos := item.length_bytes_pos
    have hrest := ih (before ++ item.bytes)
    rw [List.append_assoc, List.length_append] at hrest
    have hlt : before.length < (before ++ (item.bytes ++ items.flatMap bytes)).length := by
      simp only [List.length_append]
      omega
    -- from its start a walk sees the item and the rest of the stream
    have hdrop : (before ++ (item.bytes ++ items.flatMap bytes)).drop before.length =
        item.bytes ++ items.flatMap bytes := List.drop_left
    have hstride := item.stride?_dispatch hw (items.flatMap bytes)
    have hhanded := item.handed_dispatch (items.flatMap bytes)
    rw [← hdrop] at hstride hhanded
    rw [List.flatMap_cons]
    cases hpassed : item.passed w with
    | true =>
      rw [if_pos hpassed] at hstride
      rw [account_walkFrom hlt hstride, hhanded, hrest, List.takeWhile_cons_of_pos hpassed,
        List.flatMap_cons, List.length_append, Nat.add_assoc]
      rfl
    | false =>
      have hstops : ¬ item.passed w = true := by simp [hpassed]
      rw [if_neg hstops] at hstride
      rw [walkFrom_of_none f hlt hstride, List.takeWhile_cons_of_neg hstops]
      have haccount : Step.account ⟨before.length, f.dispatch f.everything
          ((before ++ (item.bytes ++ items.flatMap bytes)).drop before.length)⟩ =
            (before.length, item.handed) := congrArg (Prod.mk before.length) hhanded
      simp only [Trace.account, List.map_cons, List.map_nil, haccount]
      rfl

end Item

/-- **No message of a stream is lost, made twice, moved or changed.** Of
messages and unknown frames in any order, the walk that steps over
unknown frames makes one step for each, at its first byte, and ends
behind the last; what is handed over are the records, in their order and
with everything blank that they do not show. The walk that stops at an
unknown frame makes the same steps up to the first of them, and ends
where it begins. -/
theorem walk_stream (f : Family) (items : List f.Item) :
    let stream := items.flatMap Item.bytes
    let skipping := f.walk .skipUnknown f.everything stream
    let stopping := f.walk .stop f.everything stream
    let known := items.takeWhile Item.isMessage
    (∀ (k : f.Kind) (record : f.Record k) (h : Message.Encodable record),
      toBytes record = .ok (Item.message k record h).bytes) ∧
    skipping.account = (Item.accounts 0 items, stream.length) ∧
    (skipping.steps.flatMap fun step => step.delivery.events) =
      (items.flatMap fun item => item.handed.2) ∧
    stopping.account =
      (Item.accounts 0 (items.take (known.length + 1)), (known.flatMap Item.bytes).length) := by
  intro stream skipping stopping known
  have hfront : ∀ w : Walk, w ≠ .once →
      (f.walkFrom w f.everything stream 0).account =
        (Item.accounts 0 (items.take ((items.takeWhile (Item.passed w)).length + 1)),
          ((items.takeWhile (Item.passed w)).flatMap Item.bytes).length) := by
    intro w hw
    have hitems := Item.walkFrom_items hw [] items
    rwa [List.nil_append, List.length_nil, Nat.zero_add] at hitems
  have hskip : skipping.account = (Item.accounts 0 items, stream.length) := by
    have hall : items.takeWhile (Item.passed .skipUnknown) = items :=
      List.takeWhile_eq_self_iff.2 fun item _ => by simp [Item.passed]
    have hitems := hfront .skipUnknown (by decide)
    rw [hall, List.take_of_length_le (Nat.le_succ _)] at hitems
    exact hitems
  have hevents : (skipping.steps.flatMap fun step => step.delivery.events) =
      items.flatMap fun item => item.handed.2 := by
    have hsteps : skipping.steps.map Step.account = Item.accounts 0 items := congrArg Prod.fst hskip
    rw [← Item.flatMap_accounts 0 items, ← hsteps, List.flatMap_map]
    rfl
  have hstop : stopping.account =
      (Item.accounts 0 (items.take (known.length + 1)), (known.flatMap Item.bytes).length) := by
    have hknown : (Item.passed .stop : f.Item → Bool) = Item.isMessage := by
      funext item
      simp [Item.passed]
    have hitems := hfront .stop (by decide)
    rw [hknown] at hitems
    exact hitems
  exact ⟨Item.toBytes_eq, hskip, hevents, hstop⟩

/-- A frame of no known kind with a preamble in its body. -/
def nested : OrderEntry.UnknownFrame where
  low := 8
  high := 0
  type := 0x7F
  body := [0xBA, 0xBA, 8, 0, 2]
  announced := rfl
  unknown := by rintro ⟨⟩ <;> decide

/-- That frame between a cancellation and a heartbeat. -/
def mixed : List orderEntry.Item :=
  [.message .cancelOrder shownFirm (by decide : shownFirm.presence.Within _), .unknown nested,
    .message .clientHeartbeat ({} : OrderEntry.ClientHeartbeat) trivial]

theorem walk_stream_mixed :
    mixed.flatMap Item.bytes = shownFirmBytes ++ [0xBA, 0xBA, 8, 0, 0x7F, 0xBA, 0xBA, 8, 0, 2] ++
        [0xBA, 0xBA, 8, 0, 3, 0, 0, 0, 0, 0] ∧
      (orderEntry.walk .skipUnknown orderEntry.everything (mixed.flatMap Item.bytes)).account =
        ([(0, .ok 35, [⟨.cancelOrder, shownFirm⟩]), (35, .error .unknownType, []),
          (45, .ok 10, [⟨.clientHeartbeat, ({} : OrderEntry.ClientHeartbeat)⟩])], 55) ∧
      (orderEntry.walk .stop orderEntry.everything (mixed.flatMap Item.bytes)).account =
        ([(0, .ok 35, [⟨.cancelOrder, shownFirm⟩]), (35, .error .unknownType, [])], 35) := by
  obtain ⟨-, hskip, -, hstop⟩ := walk_stream orderEntry mixed
  exact ⟨by decide, hskip.trans rfl, hstop.trans rfl⟩

end Family

end TradeWire
