import TradeWire.Message
import TradeWire.Proofs.Reading
/-!
# Lawful messages — two directions that agree

A type of messages gives its two directions separately. It is lawful
when reading accepts the layouts of canonical records and no other
bytes, over whatever record it reads. Encoding and decoding are then
inverse to one another, up to what a record does not show:
`encode_of_layout` and `decodeInto_eq_ok_iff`.

Most messages are fields in a row and nothing else. That the fields
written are the fields read is true of every row (`Row.reads_decoder`),
whatever record they are the parts of.
-/

namespace TradeWire

-- Sums start from the zero of `Nat` itself, whatever algebra is in scope.
attribute [local instance (high)] Zero.ofOfNat0

namespace Sink

variable {order : ByteOrder}

/-- A write puts its bytes in the place of as many old ones. -/
theorem write_over {before old bytes : Bytes} (h : old.length = bytes.length) (rest : Bytes) :
    (⟨before ++ (old ++ rest), before.length⟩ : Sink order).write bytes =
      (.ok (), ⟨before ++ (bytes ++ rest), before.length + bytes.length⟩) := by
  unfold write remaining
  rw [if_pos (by simp only [List.length_append]; omega)]
  simp [← h, ← List.drop_drop]

/-- So do writes one after another, all together. -/
theorem writeAll_over {before old : Bytes} {fields : List Bytes}
    (h : old.length = fields.flatten.length) (rest : Bytes) :
    (⟨before ++ (old ++ rest), before.length⟩ : Sink order).writeAll fields =
      (.ok (), ⟨before ++ (fields.flatten ++ rest), before.length + fields.flatten.length⟩) := by
  induction fields generalizing before old with
  | nil =>
    obtain rfl := List.length_eq_zero_iff.1 h
    rfl
  | cons bytes fields ih =>
    rw [List.flatten_cons, List.length_append] at h
    have htake : (old.take bytes.length).length = bytes.length := List.length_take_of_le (by omega)
    have hdrop : (old.drop bytes.length).length = fields.flatten.length := by
      rw [List.length_drop]
      omega
    rw [← List.take_append_drop bytes.length old, List.append_assoc, writeAll, write_over htake]
    -- what was written now stands in front of the rest of the run
    have hrest := @ih (before ++ bytes) (old.drop bytes.length) hdrop
    simpa only [List.append_assoc, List.length_append, List.flatten_cons, Nat.add_assoc] using hrest

end Sink

/-! ## Rows of fields -/

/-- **Fields in a row,** and the type of the values they have together. -/
inductive Row : Type → Type 1 where
  | nil : Row Unit
  | cons {α τ : Type} [Field α] (behind : Row τ) : Row (α × τ)

namespace Row

/-- How many bytes each field takes. -/
def widths : {τ : Type} → Row τ → List Nat
  | _, nil => []
  | _, @cons α _ _ behind => Field.size α :: behind.widths

/-- The bytes of each field. -/
def fields (order : ByteOrder) : {τ : Type} → Row τ → τ → List Bytes
  | _, nil, _ => []
  | _, cons behind, values => Field.bytes order values.1 :: behind.fields order values.2

/-- Reads the fields one after another. -/
def decoder (order : ByteOrder) : {τ : Type} → Row τ → Decoder order τ
  | _, nil => pure ()
  | _, cons behind => do
    let first ← Decoder.field
    let values ← behind.decoder order
    pure (first, values)

variable {α τ : Type} {order : ByteOrder}

/-- Every value takes the same bytes. -/
theorem map_length_fields (row : Row τ) (values : τ) :
    (row.fields order values).map List.length = row.widths := by
  induction row with
  | nil => rfl
  | cons behind ih => rw [fields, List.map_cons, Field.length_bytes, ih, widths]

theorem length_flatten_fields (row : Row τ) (values : τ) :
    (row.fields order values).flatten.length = row.widths.sum := by
  rw [List.length_flatten, map_length_fields]

/-- **The fields read are the fields written.** -/
theorem reads_decoder (row : Row τ) (chunk : Bytes) (values : τ) :
    (row.decoder order).Reads chunk values ↔ chunk = (row.fields order values).flatten := by
  induction row generalizing chunk with
  | nil => exact and_iff_left rfl
  | cons behind ih =>
    obtain ⟨first, values⟩ := values
    rw [decoder, fields, List.flatten_cons, Decoder.reads_field_bind]
    simp only [Decoder.reads_bind, ih, Decoder.reads_pure, Prod.mk.injEq]
    constructor
    · rintro ⟨_, _, rfl, _, _, _, rfl, rfl, rfl, rfl, rfl⟩
      rw [List.append_nil]
    · rintro rfl
      exact ⟨first, _, rfl, values, _, [], (List.append_nil _).symm, rfl, rfl, rfl, rfl⟩

theorem frugal_decoder (row : Row τ) : (row.decoder order).Frugal := by
  induction row with
  | nil => exact Decoder.frugal_pure ()
  | cons behind ih =>
    exact Decoder.frugal_bind Decoder.frugal_field fun _ =>
      Decoder.frugal_bind ih fun _ => Decoder.frugal_pure _

/-- What is made of the values is read from their bytes. -/
theorem reads_map (row : Row τ) (f : τ → α) (chunk : Bytes) (value : α) :
    (do let values ← row.decoder order; pure (f values)).Reads chunk value ↔
      ∃ values, chunk = (row.fields order values).flatten ∧ value = f values := by
  simp only [Decoder.reads_bind, reads_decoder, Decoder.reads_pure]
  constructor
  · rintro ⟨values, _, _, rfl, rfl, rfl, rfl⟩
    exact ⟨values, List.append_nil _, rfl⟩
  · rintro ⟨values, rfl, rfl⟩
    exact ⟨values, _, [], (List.append_nil _).symm, rfl, rfl, rfl⟩

theorem frugal_map (row : Row τ) (f : τ → α) :
    (do let values ← row.decoder order; pure (f values)).Frugal :=
  Decoder.frugal_bind row.frugal_decoder fun _ => Decoder.frugal_pure _

end Row

namespace Message

variable {order : ByteOrder} {M : Type} [Message order M]

/-- The bytes of a record, unless it breaks a rule of the format. -/
def layout? (record : M) : Option Bytes := (fields? record).map List.flatten

end Message

open Message in
/-- **Messages whose two directions agree.** -/
class LawfulMessage (order : outParam ByteOrder) (M : Type) [Message order M] : Prop where
  /-- Records that keep the rules have a layout, and no others do. -/
  isSome_layout? : ∀ record : M, (layout? record).isSome ↔ Message.Encodable record
  /-- The length is counted as it is laid out. -/
  length_layout : ∀ {record : M} {chunk : Bytes}, layout? record = some chunk →
    chunk.length = encodedLen record
  /-- What a record does not show is not laid out. -/
  layout?_canonical : ∀ record : M, layout? (canonical record) = layout? record
  canonical_canonical : ∀ record : M, canonical (canonical record) = canonical record
  /-- Reading accepts the layouts of canonical records, over any record. -/
  reads_refill : ∀ (prior record : M) (chunk : Bytes),
    (refill prior).Reads chunk record ↔ canonical record = record ∧ layout? record = some chunk
  frugal_refill : ∀ prior : M, (refill prior).Frugal

namespace LawfulMessage

open Message

/-- Messages that show all of every record, and refuse none. -/
theorem of_shown {order : ByteOrder} {M : Type} [Message order M]
    (hcanonical : ∀ record : M, canonical record = record)
    (hencodable : ∀ record : M, Message.Encodable record)
    (hsome : ∀ record : M, (layout? record).isSome)
    (hlength : ∀ {record : M} {chunk : Bytes}, layout? record = some chunk →
      chunk.length = encodedLen record)
    (hreads : ∀ (prior record : M) (chunk : Bytes),
      (refill prior).Reads chunk record ↔ layout? record = some chunk)
    (hfrugal : ∀ prior : M, (refill prior).Frugal) : LawfulMessage order M where
  isSome_layout? record := iff_of_true (hsome record) (hencodable record)
  length_layout := hlength
  layout?_canonical record := by rw [hcanonical]
  canonical_canonical record := by rw [hcanonical]
  reads_refill prior record chunk := by rw [hreads, and_iff_right (hcanonical record)]
  frugal_refill := hfrugal

end LawfulMessage

namespace Message

open LawfulMessage

variable {order : ByteOrder} {M : Type} [Message order M] [LawfulMessage order M]

/-- A record that keeps the rules has a layout of the length counted. -/
theorem exists_layout {record : M} (h : Message.Encodable record) :
    ∃ chunk, layout? record = some chunk ∧ chunk.length = encodedLen record := by
  obtain ⟨chunk, hchunk⟩ := Option.isSome_iff_exists.1 ((isSome_layout? record).2 h)
  exact ⟨chunk, hchunk, length_layout hchunk⟩

theorem encodable_of_layout {record : M} {chunk : Bytes} (h : layout? record = some chunk) :
    Message.Encodable record := (isSome_layout? record).1 (by rw [h]; rfl)

/-- **A record with a layout is encoded so** in every buffer that has the
room, over whatever stood there, and what stands behind it stays. -/
theorem encode_of_layout {record : M} {chunk buffer : Bytes} (h : layout? record = some chunk)
    (hroom : encodedLen record ≤ buffer.length) :
    encode record buffer =
      .ok (encodedLen record, chunk ++ buffer.drop (encodedLen record)) := by
  obtain ⟨fields, hfields, rfl⟩ := Option.map_eq_some_iff.1 h
  have hlen := length_layout h
  have hold : (buffer.take (encodedLen record)).length = fields.flatten.length := by
    rw [hlen]
    exact List.length_take_of_le hroom
  have hwrite := @Sink.writeAll_over order [] _ _ hold (buffer.drop (encodedLen record))
  rw [List.nil_append, List.take_append_drop, hlen] at hwrite
  unfold encode write
  rw [hfields]
  dsimp only
  rw [show Sink.ofBuffer buffer = (⟨buffer, [].length⟩ : Sink order) from rfl, hwrite]
  simp

/-- **Decoding accepts canonical records by their layouts,** whatever
stands behind them and whatever record is read over. -/
theorem decodeInto_eq_ok_iff (prior record : M) (bytes : Bytes) (n : Nat) :
    decodeInto prior bytes = .ok (record, n) ↔
      n ≤ bytes.length ∧ canonical record = record ∧ layout? record = some (bytes.take n) := by
  rw [decodeInto, Decoder.decode_eq_ok_iff (frugal_refill prior), reads_refill]

/-- What was taken is as long as the record says. -/
theorem eq_encodedLen_of_decodeInto {prior record : M} {bytes : Bytes} {n : Nat}
    (h : decodeInto prior bytes = .ok (record, n)) : n = encodedLen record := by
  obtain ⟨hn, -, hlayout⟩ := (decodeInto_eq_ok_iff prior record bytes n).1 h
  rw [← length_layout hlayout, List.length_take_of_le hn]

end Message

end TradeWire
