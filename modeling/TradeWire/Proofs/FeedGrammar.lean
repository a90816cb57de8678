import Mathlib.Logic.Equiv.Defs
import TradeWire.Proofs.Dispatching
import TradeWire.Proofs.Positions
import TradeWire.Proofs.Reach
import TradeWire.Proofs.Slices
/-!
# The grammar of the feed — which bytes are messages

A feed message is a tag and fields of fixed size behind it, and nothing
behind the tag can be wrong. So a decoder says of any bytes what their
first byte and their number say (`reach_refill`), and every byte string of
the right size that begins with the tag is the message of exactly one
record (`Kind.codec`).

Which slice shows which field is stated with offsets of its own
(`Kind.Shows`). That the layouts agree with it comes down to one fact about
fields in a row: each stands behind the widths of those before it
(`slice_flatten`).
-/

namespace TradeWire

-- Sums start from the zero of `Nat` itself, whatever algebra is in scope.
attribute [local instance (high)] Zero.ofOfNat0

/-- A row is read without a check. -/
theorem Row.fixed_decoder {order : ByteOrder} {τ : Type} (row : Row τ) :
    (row.decoder order).Fixed row.widths.sum := by
  induction row with
  | nil => rfl
  | cons behind ih =>
    rw [widths, List.sum_cons]
    exact Decoder.fixed_bind Decoder.fixed_field fun _ =>
      Decoder.fixed_bind (m := 0) ih fun _ => rfl

namespace Message

variable {order : ByteOrder} {M : Type} [Message order M] {bytes : Bytes}

/-- A message fails to be read where its decoder gets nowhere. -/
theorem decode_of_reach_error {fault : Fault}
    (h : (refill (blank : M)).reach bytes 0 = .error fault) :
    Message.decode (M := M) bytes = .error fault := by
  rw [Decoder.reach_zero] at h
  change (refill (blank : M)).decode bytes = _
  cases hdecode : (refill (blank : M)).decode bytes with
  | error cause =>
    rw [hdecode] at h
    exact congrArg Except.error (Except.error.inj h)
  | ok found =>
    rw [hdecode] at h
    cases h

/-- And is read where its decoder gets behind it. -/
theorem exists_decode_of_reach {n : Nat} (h : (refill (blank : M)).reach bytes 0 = .ok n) :
    ∃ record : M, Message.decode bytes = .ok (record, n) := by
  rw [Decoder.reach_zero] at h
  change ∃ record, (refill (blank : M)).decode bytes = .ok (record, n)
  cases hdecode : (refill (blank : M)).decode bytes with
  | error cause =>
    rw [hdecode] at h
    cases h
  | ok found =>
    rw [hdecode] at h
    obtain rfl : found.2 = n := Except.ok.inj h
    exact ⟨found.1, rfl⟩

end Message

namespace Feed

open Decoder Message

/-! ## The grammar -/

/-- The number in so many bytes at an offset, the most significant first. -/
def numberAt (bytes : Bytes) (offset width : Nat) : Nat :=
  ByteOrder.big.load (slice bytes offset width)

namespace Kind

/-- The bytes of every message of a kind. -/
def size : Kind → Nat
  | systemEvent => 6
  | addOrder => 30
  | orderExecuted => 25
  | orderCancel => 17
  | deleteOrder => 13

/-- **The byte strings that are messages of a kind.** -/
@[ext]
structure Wire (k : Kind) where
  bytes : Bytes
  length_bytes : bytes.length = k.size
  /-- The first byte is the tag. -/
  head_bytes : bytes.head? = some (Message.type k.Record)

/-- **What a record has is what stands in the bytes,** field by field. -/
def Shows : (k : Kind) → k.Record → Bytes → Prop
  | systemEvent, (record : SystemEvent), bytes =>
    record.timestamp.toNat = numberAt bytes 1 4 ∧
    record.eventCode.toNat = numberAt bytes 5 1
  | addOrder, (record : AddOrder), bytes =>
    record.timestamp.toNat = numberAt bytes 1 4 ∧
    record.orderId.toNat = numberAt bytes 5 8 ∧
    record.side.toNat = numberAt bytes 13 1 ∧
    record.shares.toNat = numberAt bytes 14 4 ∧
    record.symbol.toList = slice bytes 18 8 ∧
    record.price.toNat = numberAt bytes 26 4
  | orderExecuted, (record : OrderExecuted), bytes =>
    record.timestamp.toNat = numberAt bytes 1 4 ∧
    record.orderId.toNat = numberAt bytes 5 8 ∧
    record.executedShares.toNat = numberAt bytes 13 4 ∧
    record.matchNumber.toNat = numberAt bytes 17 8
  | orderCancel, (record : OrderCancel), bytes =>
    record.timestamp.toNat = numberAt bytes 1 4 ∧
    record.orderId.toNat = numberAt bytes 5 8 ∧
    record.cancelledShares.toNat = numberAt bytes 13 4
  | deleteOrder, (record : DeleteOrder), bytes =>
    record.timestamp.toNat = numberAt bytes 1 4 ∧
    record.orderId.toNat = numberAt bytes 5 8

/-- **What a decoder says of these bytes,** by the first of them and their
number. -/
structure Reads (k : Kind) (bytes : Bytes) : Prop where
  empty : bytes.head? = none → Message.decode (M := k.Record) bytes = .error .shortBuffer
  otherTag : ∀ type, bytes.head? = some type → type ≠ Message.type k.Record →
    Message.decode (M := k.Record) bytes = .error .badValue
  cut : bytes.head? = some (Message.type k.Record) → bytes.length < k.size →
    Message.decode (M := k.Record) bytes = .error .shortBuffer
  whole : bytes.head? = some (Message.type k.Record) → k.size ≤ bytes.length →
    ∃ record : k.Record, Message.decode bytes = .ok (record, k.size) ∧ k.Shows record bytes

end Kind

/-! ## What a decoder says -/

/-- Behind its tag a message is read without a check. -/
theorem exists_refill_eq_fixed (k : Kind) (prior : k.Record) :
    ∃ body, refill prior = (do tag (Message.type k.Record); body) ∧ body.Fixed (k.size - 1) := by
  have hsize : k.row.widths.sum + 0 = k.size - 1 := by cases k <;> rfl
  refine ⟨_, k.refill_eq prior, ?_⟩
  rw [← hsize]
  exact fixed_bind k.row.fixed_decoder fun _ => rfl

/-- **How far a decoder gets** is told by the first byte and the number of
them. -/
theorem reach_refill (k : Kind) (prior : k.Record) (bytes : Bytes) :
    (refill prior).reach bytes 0 =
      match bytes.head? with
      | none => .error .shortBuffer
      | some type =>
        if type ≠ Message.type k.Record then .error .badValue
        else if k.size ≤ bytes.length then .ok k.size else .error .shortBuffer := by
  obtain ⟨body, hbody, hfixed⟩ := exists_refill_eq_fixed k prior
  have hsize : 1 + (k.size - 1) = k.size := by cases k <;> rfl
  -- the tag is judged before anything behind it is asked for
  rw [hbody, tag, bind_assoc]
  cases bytes with
  | nil =>
    refine reach_of_atLeast 1 ?_ (Nat.le_refl 0) Nat.zero_lt_one
    rw [atLeast_field_bind]
    exact fun found => atLeast_zero _
  | cons type rest =>
    have hthere : 1 ≤ (type :: rest).length := Nat.le_add_left 1 rest.length
    have hexpect := reach_expect (Message.type k.Record) (fun _ => body) (Nat.zero_add 1) hthere
    have hfirst : ((type :: rest).drop 0).take (Field.size UInt8) = [type] := rfl
    rw [hfirst, Field.bytes_uint8, reach_of_fixed hfixed hthere, hsize] at hexpect
    rw [hexpect]
    simp only [List.head?_cons, List.cons.injEq, and_true, ne_eq, ite_not]

/-! ## What a record has -/

/-- The fields of a layout, each a slice. -/
theorem slice_layout {M : Type} [Message .big M] {record : M} {fields : List Bytes} {chunk : Bytes}
    (widths : List Nat) (hfields : fields? record = some fields)
    (hwidths : fields.map List.length = widths) (h : layout? record = some chunk) (rest : Bytes)
    (i : Nat) :
    slice (chunk ++ rest) (widths.take i).sum (widths.getD i 0) = fields.getD i [] := by
  rw [layout?, hfields, Option.map_some] at h
  rw [← Option.some.inj h]
  exact slice_flatten hwidths rest i

/-- A word stands where its bytes do. -/
theorem toNat_eq_numberAt (w : Width) {value : w.Word} {bytes : Bytes} {offset width : Nat}
    (h : slice bytes offset width = Field.bytes .big value) :
    w.toNat value = numberAt bytes offset width := by
  rw [numberAt, h, w.load_bytes]

theorem shows_of_layout (k : Kind) {record : k.Record} {chunk : Bytes}
    (h : layout? record = some chunk) (rest : Bytes) : k.Shows record (chunk ++ rest) := by
  cases k with
  | systemEvent =>
    have hslice := slice_layout (M := SystemEvent) [1, 4, 1] rfl (by simp) h rest
    exact ⟨toNat_eq_numberAt .w32 (hslice 1), toNat_eq_numberAt .w8 (hslice 2)⟩
  | addOrder =>
    have hslice := slice_layout (M := AddOrder) [1, 4, 8, 1, 4, 8, 4] rfl (by simp) h rest
    exact ⟨toNat_eq_numberAt .w32 (hslice 1), toNat_eq_numberAt .w64 (hslice 2),
      toNat_eq_numberAt .w8 (hslice 3), toNat_eq_numberAt .w32 (hslice 4), (hslice 5).symm,
      toNat_eq_numberAt .w32 (hslice 6)⟩
  | orderExecuted =>
    have hslice := slice_layout (M := OrderExecuted) [1, 4, 8, 4, 8] rfl (by simp) h rest
    exact ⟨toNat_eq_numberAt .w32 (hslice 1), toNat_eq_numberAt .w64 (hslice 2),
      toNat_eq_numberAt .w32 (hslice 3), toNat_eq_numberAt .w64 (hslice 4)⟩
  | orderCancel =>
    have hslice := slice_layout (M := OrderCancel) [1, 4, 8, 4] rfl (by simp) h rest
    exact ⟨toNat_eq_numberAt .w32 (hslice 1), toNat_eq_numberAt .w64 (hslice 2),
      toNat_eq_numberAt .w32 (hslice 3)⟩
  | deleteOrder =>
    have hslice := slice_layout (M := DeleteOrder) [1, 4, 8] rfl (by simp) h rest
    exact ⟨toNat_eq_numberAt .w32 (hslice 1), toNat_eq_numberAt .w64 (hslice 2)⟩

/-- **A feed decoder reads its grammar.** -/
theorem reads_grammar (k : Kind) (bytes : Bytes) : k.Reads bytes := by
  have hreach := reach_refill k blank bytes
  refine ⟨fun hempty => ?_, fun type htype hother => ?_, fun htag hcut => ?_, fun htag hwhole => ?_⟩
  · rw [hempty] at hreach
    exact decode_of_reach_error hreach
  · rw [htype] at hreach
    dsimp only at hreach
    rw [if_pos hother] at hreach
    exact decode_of_reach_error hreach
  · rw [htag] at hreach
    dsimp only at hreach
    rw [if_neg (by simp), if_neg (by omega)] at hreach
    exact decode_of_reach_error hreach
  · rw [htag] at hreach
    dsimp only at hreach
    rw [if_neg (by simp), if_pos hwhole] at hreach
    obtain ⟨record, hdecode⟩ := exists_decode_of_reach hreach
    obtain ⟨-, -, hlayout⟩ := (decodeInto_eq_ok_iff blank record bytes k.size).1 hdecode
    have hshows := shows_of_layout k hlayout (bytes.drop k.size)
    rw [List.take_append_drop] at hshows
    exact ⟨record, hdecode, hshows⟩

/-! ## Records and their messages -/

/-- What is accepted begins with the tag and is of the size. -/
theorem of_decode_eq_ok {k : Kind} {bytes : Bytes} {record : k.Record} {n : Nat}
    (h : Message.decode bytes = .ok (record, n)) :
    bytes.head? = some (Message.type k.Record) ∧ n = k.size := by
  obtain ⟨hempty, hother, hcut, hwhole⟩ := reads_grammar k bytes
  cases hhead : bytes.head? with
  | none => cases (hempty hhead).symm.trans h
  | some type =>
    by_cases htype : type = Message.type k.Record
    · subst htype
      rcases Nat.lt_or_ge bytes.length k.size with hlt | hge
      · cases (hcut hhead hlt).symm.trans h
      · obtain ⟨found, hdecode, -⟩ := hwhole hhead hge
        have hsame := Except.ok.inj (hdecode.symm.trans h)
        exact ⟨rfl, (congrArg Prod.snd hsame).symm⟩
    · cases (hother type hhead htype).symm.trans h

/-- A layout is accepted for its record. -/
theorem decode_of_layout {k : Kind} {record : k.Record} {chunk : Bytes}
    (h : layout? record = some chunk) : Message.decode chunk = .ok (record, chunk.length) := by
  refine (decodeInto_eq_ok_iff blank record chunk chunk.length).2 ⟨Nat.le_refl _, ?_, ?_⟩
  · exact canonical_eq k record
  · rw [List.take_length]
    exact h

namespace Kind

variable {k : Kind}

/-- The layout of a record, which every record has. -/
theorem layout?_eq (record : k.Record) :
    layout? record = some ((layout? record).getD []) := by
  obtain ⟨chunk, hchunk, -⟩ := exists_layout (encodable k record)
  rw [hchunk]
  rfl

/-- The message of a record. -/
def wire (record : k.Record) : k.Wire where
  bytes := (layout? record).getD []
  length_bytes := (of_decode_eq_ok (decode_of_layout (layout?_eq record))).2
  head_bytes := (of_decode_eq_ok (decode_of_layout (layout?_eq record))).1

/-- The record of a message. -/
def record (w : k.Wire) : k.Record :=
  match Message.decode (M := k.Record) w.bytes with
  | .ok (record, _) => record
  | .error _ => blank

theorem decode_wire (w : k.Wire) : Message.decode w.bytes = .ok (record w, k.size) := by
  have hwhole := (reads_grammar k w.bytes).whole w.head_bytes (Nat.le_of_eq w.length_bytes.symm)
  obtain ⟨found, hdecode, -⟩ := hwhole
  rw [record, hdecode]

/-- **Records and messages of a kind are one for one.** -/
def codec (k : Kind) : k.Record ≃ k.Wire where
  toFun := wire
  invFun := record
  left_inv r := by
    have hdecode := decode_of_layout (layout?_eq r)
    exact congrArg Prod.fst (Except.ok.inj ((decode_wire (wire r)).symm.trans hdecode))
  right_inv w := by
    obtain ⟨-, -, hlayout⟩ :=
      (decodeInto_eq_ok_iff blank (record w) w.bytes k.size).1 (decode_wire w)
    rw [← w.length_bytes, List.take_length] at hlayout
    exact Wire.ext (congrArg (Option.getD · []) hlayout)

end Kind

/-! ## Delivery -/

/-- The first byte is the type. -/
theorem peekType_cons (type : UInt8) (rest : Bytes) :
    Family.feed.peekType.decode (type :: rest) = .ok (type, 1) := by
  refine (Decoder.decode_eq_ok_iff (Family.frugal_peekType .feed) _ type 1).2 ⟨?_, ?_⟩
  · exact Nat.le_add_left 1 rest.length
  · exact (reads_field [type] type).2 (Field.bytes_uint8 .big type).symm

/-- Behind its own tag a decoder has nothing to reject. -/
theorem decode_ne_badValue {k : Kind} {bytes : Bytes}
    (h : bytes.head? = some (Message.type k.Record)) :
    Message.decode (M := k.Record) bytes ≠ .error .badValue := by
  intro hbad
  have hreads := reads_grammar k bytes
  rcases Nat.lt_or_ge bytes.length k.size with hlt | hge
  · cases (hreads.cut h hlt).symm.trans hbad
  · obtain ⟨record, hdecode, -⟩ := hreads.whole h hge
    cases hdecode.symm.trans hbad

/-- So a delivery, which decodes by the tag, rejects nothing. -/
theorem dispatch_ne_badValue (listener : Family.feed.Listener) (bytes : Bytes) :
    (Family.feed.dispatch listener bytes).outcome ≠ .error .badValue := by
  rcases Family.dispatch_cases listener bytes with
    ⟨fault, hpeek, heq⟩ | ⟨k, m, hpeek, heq⟩ | ⟨type, m, -, -, heq⟩
  · cases bytes with
    | nil =>
      cases hpeek
      rw [heq]
      simp
    | cons type rest => cases (peekType_cons type rest).symm.trans hpeek
  · cases bytes with
    | nil => cases hpeek
    | cons type rest =>
      -- the kind was chosen by the very byte its decoder compares
      have htype := congrArg Prod.fst (Except.ok.inj ((peekType_cons type rest).symm.trans hpeek))
      have hdecode : Family.feed.decode k (type :: rest) ≠ .error .badValue :=
        decode_ne_badValue (k := k) (congrArg some htype)
      rw [heq, Family.deliver]
      intro hbad
      split at hbad
      · cases hbad
      · next fault hfault =>
        cases hbad
        exact hdecode hfault
  · rw [heq]
    simp

theorem dispatch_eq_unknownType_iff (listener : Family.feed.Listener) (bytes : Bytes) :
    (Family.feed.dispatch listener bytes).outcome = .error .unknownType ↔
      ∃ type rest, bytes = type :: rest ∧ ∀ k : Kind, Message.type k.Record ≠ type := by
  rw [Family.dispatch_eq_unknownType_iff]
  constructor
  · rintro ⟨type, m, hpeek, hnone⟩
    cases bytes with
    | nil => cases hpeek
    | cons first rest =>
      have htype := congrArg Prod.fst (Except.ok.inj ((peekType_cons first rest).symm.trans hpeek))
      exact ⟨type, rest, congrArg (· :: rest) htype, Family.kindOf?_eq_none_iff.1 hnone⟩
  · rintro ⟨type, rest, rfl, hnone⟩
    exact ⟨type, 1, peekType_cons type rest, Family.kindOf?_eq_none_iff.2 hnone⟩

/-- **The feed codec is one for one, and accepts its grammar.** The records
of a kind and the byte strings of its size that begin with its tag are
written and read as one another. Of any other bytes a decoder says what
their first byte and their number say, and what it accepts has every field
as it stands in its slice. So a delivery has nothing to reject, and knows
no type exactly where there is a first byte that is no tag. -/
theorem codec_grammar :
    (∀ k : Kind,
      (∃ codec : k.Record ≃ k.Wire,
        (∀ (record : k.Record) (buffer : Bytes), k.size ≤ buffer.length →
          Message.encode record buffer =
            .ok (k.size, (codec record).bytes ++ buffer.drop k.size)) ∧
        ∀ wire : k.Wire, Message.decode wire.bytes = .ok (codec.symm wire, k.size)) ∧
      ∀ bytes : Bytes, k.Reads bytes) ∧
    ∀ (listener : Family.feed.Listener) (bytes : Bytes),
      (Family.feed.dispatch listener bytes).outcome ≠ .error .badValue ∧
      ((Family.feed.dispatch listener bytes).outcome = .error .unknownType ↔
        ∃ type rest, bytes = type :: rest ∧ ∀ k : Kind, Message.type k.Record ≠ type) := by
  constructor
  · intro k
    refine ⟨⟨k.codec, fun record buffer hroom => ?_, Kind.decode_wire⟩, reads_grammar k⟩
    have hlayout := Kind.layout?_eq record
    have hlength : encodedLen record = k.size :=
      (LawfulMessage.length_layout hlayout).symm.trans (Kind.wire record).length_bytes
    rw [← hlength] at hroom ⊢
    exact encode_of_layout hlayout hroom
  · intro listener bytes
    exact ⟨dispatch_ne_badValue listener bytes, dispatch_eq_unknownType_iff listener bytes⟩

/-- An order taken off the book, and a byte behind it. -/
def removal : Bytes := [0x44, 0, 9, 0xFB, 0xF1, 9, 8, 7, 6, 5, 4, 3, 2, 0xEE]

theorem codec_grammar_removal :
    (∃ record : DeleteOrder, Message.decode removal = .ok (record, 13) ∧
      record.timestamp.toNat = 654321 ∧ record.orderId.toNat = 0x0908070605040302) ∧
    Message.decode (M := DeleteOrder) (removal.take 12) = .error .shortBuffer ∧
    Message.decode (M := OrderCancel) removal = .error .badValue ∧
    (Family.feed.dispatch (fun _ => true) [0x5A, 0, 0]).outcome = .error .unknownType := by
  obtain ⟨hgrammar, hdispatch⟩ := codec_grammar
  obtain ⟨-, hreads⟩ := hgrammar .deleteOrder
  obtain ⟨record, hdecode, htimestamp, horderId⟩ := (hreads removal).whole rfl (by decide)
  obtain ⟨-, hother⟩ := hgrammar .orderCancel
  have hnone : ∀ k : Kind, Message.type k.Record ≠ 0x5A := fun k => by cases k <;> decide
  have hunknown := (hdispatch (fun _ => true) [0x5A, 0, 0]).2.2 ⟨_, _, rfl, hnone⟩
  exact ⟨⟨record, hdecode, htimestamp, horderId⟩, (hreads _).cut rfl (by decide),
    (hother removal).otherTag _ rfl (by decide), hunknown⟩

end Feed

end TradeWire
