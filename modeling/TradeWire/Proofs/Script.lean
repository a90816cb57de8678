import TradeWire.Proofs.Conservation
import TradeWire.Proofs.Positions
import TradeWire.Proofs.RoundTrip
/-!
# Scripts — writing values in a row and reading them back

A script is a row of values of fixed sizes and of records, written through
one sink and read through one source. An item is written as its layout
wherever there is room (`perform_writing`), and read from its layout
wherever that stands (`perform_reading`), so both move by the length of the
layout and nothing but the layout is between them.

The induction is on the script. The sink it goes on with has the items
before it behind its position, and the reader has the buffer as it will be
in the end, whose part from the position on is the layouts still to come.
-/

namespace TradeWire

-- Sums start from the zero of `Nat` itself, whatever algebra is in scope.
attribute [local instance (high)] Zero.ofOfNat0

/-- The sink behind a run of commands. -/
def Sink.finish {order : ByteOrder} (s : Sink order) : List (Sink.Command order) → Sink order
  | [] => s
  | command :: rest => (command.perform s).2.finish rest

/-- From its old position on, a sink has what it was overwritten with. -/
theorem Sink.drop_buffer_overwrite {order : ByteOrder} {s : Sink order} (bytes : Bytes)
    (h : s.pos ≤ s.buffer.length) :
    (s.overwrite bytes).buffer.drop s.pos = bytes ++ s.buffer.drop (s.pos + bytes.length) := by
  have hfront : (s.buffer.take s.pos).length = s.pos := List.length_take_of_le h
  rw [overwrite, List.append_assoc, List.drop_left' hfront]

/-- **What fits is written,** and moves the sink behind it. -/
theorem Sink.Command.perform_of_room {order : ByteOrder} {s : Sink order}
    {command : Sink.Command order} {bytes : Bytes} (hencoding : command.encoding = .ok bytes)
    (hroom : s.pos + bytes.length ≤ s.buffer.length) :
    command.perform s = (.ok (), s.overwrite bytes) := by
  have hremaining : s.remaining = s.buffer.length - s.pos := rfl
  obtain ⟨part, hcontributes, -, hafter⟩ := command.contributes_perform (s := s) (by omega)
  suffices hwhole : (command.perform s).1 = .ok () ∧ part = bytes by
    rw [← hwhole.1, ← hwhole.2, ← hafter]
  generalize (command.perform s).1 = outcome at hcontributes
  cases hcontributes with
  | whole h _ => exact ⟨rfl, Except.ok.inj (h.symm.trans hencoding)⟩
  | nothing _ h hlacks =>
    obtain rfl := Except.ok.inj (h.symm.trans hencoding)
    omega
  | refused h => cases h.symm.trans hencoding
  | cut _ h _ hlacks =>
    obtain rfl := Except.ok.inj (h.symm.trans hencoding)
    omega

namespace Script

variable {order : ByteOrder}

/-! ## Items -/

/-- **An item of a script:** a value of a fixed size, or a record that
keeps the rules, with one to read it over. -/
inductive Item : ByteOrder → Type 1 where
  | field {order : ByteOrder} {α : Type} [Field α] (value : α) : Item order
  | message {f : Family} {k : f.Kind} (record prior : f.Record k)
      (encodable : Message.Encodable record) : Item f.order

namespace Item

/-- The command to write an item. -/
def writing : Item order → Sink.Command order
  | field value => .put value
  | message record _ _ => .message record

/-- The command to read an item. -/
def reading : Item order → Reader.Command order
  | @field _ α _ _ => .field α
  | message _ prior _ => .message prior

/-- What an item is read back as: itself, or what the record shows. -/
def shown : (item : Item order) → item.reading.Answer
  | field value => value
  | @message f k record _ _ => (Message.canonical record : f.Record k)

/-- How many bytes an item takes. -/
def size : Item order → Nat
  | @field _ α _ _ => Field.size α
  | message record _ _ => Message.encodedLen record

/-- The bytes of an item. -/
def layout : Item order → Bytes
  | field value => Field.bytes order value
  | message record _ _ => (Message.layout? record).getD []

/-- A record that keeps the rules has a layout. -/
theorem layout?_message {f : Family} {k : f.Kind} (r prior : f.Record k)
    (h : Message.Encodable r) : Message.layout? r = some (message r prior h).layout := by
  obtain ⟨chunk, hchunk, -⟩ := Message.exists_layout h
  rw [layout, hchunk]
  rfl

theorem length_layout (item : Item order) : item.layout.length = item.size := by
  cases item with
  | field value => exact Field.length_bytes order value
  | message record prior h => exact LawfulMessage.length_layout (layout?_message record prior h)

theorem encoding_writing (item : Item order) : item.writing.encoding = .ok item.layout := by
  cases item with
  | field value => rfl
  | message record prior h =>
    exact (Message.toBytes_eq_ok_iff record _).2 (layout?_message record prior h)

theorem perform_writing (item : Item order) {s : Sink order}
    (hroom : s.pos + item.size ≤ s.buffer.length) :
    item.writing.perform s = (.ok (), s.overwrite item.layout) := by
  rw [← item.length_layout] at hroom
  exact Sink.Command.perform_of_room item.encoding_writing hroom

theorem perform_reading (item : Item order) {r : Reader order} {rest : Bytes}
    (h : r.source.bytes.drop r.source.pos = item.layout ++ rest) :
    item.reading.perform r = (.ok item.shown, r.advance item.size) := by
  rw [← item.length_layout]
  cases item with
  | @field _ α _ value =>
    exact congrArg r.read (Decoder.run_of_reads Decoder.frugal_field
      ((Decoder.reads_field _ value).2 rfl) h)
  | message record prior hencodable =>
    have hreads := (LawfulMessage.reads_refill prior (Message.canonical record) _).2
      ⟨LawfulMessage.canonical_canonical record,
        (LawfulMessage.layout?_canonical record).trans (layout?_message record prior hencodable)⟩
    exact congrArg r.read (Decoder.run_of_reads (LawfulMessage.frugal_refill prior) hreads h)

/-- **An item that is written here and read back there:** both succeed, the
value is what was written, and both go from the same position to the same,
by the size of the item. -/
structure ReadBack (item : Item order) (s : Sink order) (r : Reader order) : Prop where
  written : (item.writing.perform s).1 = .ok ()
  read : (item.reading.perform r).1 = .ok item.shown
  pos_eq : s.pos = r.source.pos
  pos_written : (item.writing.perform s).2.pos = s.pos + item.size
  pos_read : (item.reading.perform r).2.source.pos = r.source.pos + item.size

end Item

/-- How many bytes a script takes. -/
def size (script : List (Item order)) : Nat := (script.map Item.size).sum

theorem length_flatMap_layout (script : List (Item order)) :
    (script.flatMap Item.layout).length = size script := by
  rw [List.length_flatMap, size]
  exact congrArg List.sum (List.map_congr_left fun item _ => item.length_layout)

/-! ## Runs -/

/-- Writing a script puts the layouts in a row. -/
theorem finish_writing (script : List (Item order)) {s : Sink order}
    (hroom : s.pos + size script ≤ s.buffer.length) :
    s.finish (script.map Item.writing) = s.overwrite (script.flatMap Item.layout) := by
  induction script generalizing s with
  | nil => rw [List.flatMap_nil, Sink.overwrite_nil]; rfl
  | cons item script ih =>
    have hsize : size (item :: script) = item.size + size script := List.sum_cons
    have hlength := item.length_layout
    have hitem : s.pos + item.layout.length ≤ s.buffer.length := by omega
    have hbuffer := Sink.length_buffer_overwrite hitem
    have hpos : (s.overwrite item.layout).pos = s.pos + item.layout.length := rfl
    have hrest := ih (s := s.overwrite item.layout) (by omega)
    rw [List.map_cons, Sink.finish, item.perform_writing (by omega), hrest,
      Sink.overwrite_overwrite hitem, List.flatMap_cons]

/-- **Every item of a script is read back,** from a sink with room for the
script by a reader of what that sink will be. -/
theorem readBack_of_room (script : List (Item order)) {s : Sink order} {r : Reader order}
    (hroom : s.pos + size script ≤ s.buffer.length) (hpos : s.pos = r.source.pos)
    (hbytes : r.source.bytes = (s.finish (script.map Item.writing)).buffer) :
    ∀ (n : Nat) (item : Item order), script[n]? = some item → ∃ s' r',
      (s.trace (script.map Item.writing))[n]? = some ⟨item.writing, s'⟩ ∧
      (r.trace (script.map Item.reading))[n]? = some ⟨item.reading, r'⟩ ∧
      s'.pos = s.pos + size (script.take n) ∧ item.ReadBack s' r' := by
  induction script generalizing s r with
  | nil =>
    intro n item hitem
    cases hitem
  | cons first script ih =>
    intro n item hitem
    have hsize : size (first :: script) = first.size + size script := List.sum_cons
    have hlength := first.length_layout
    have hfirst : s.pos + first.layout.length ≤ s.buffer.length := by omega
    have hwrite := first.perform_writing (s := s) (by omega)
    -- the buffer in the end has this layout here, and the rest of them behind
    have hread : first.reading.perform r = (.ok first.shown, r.advance first.size) := by
      have hwhole := finish_writing (first :: script) (s := s) (by omega)
      have hdrop := Sink.drop_buffer_overwrite ((first :: script).flatMap Item.layout)
        (s := s) (by omega)
      rw [← hwhole, ← hbytes, hpos, List.flatMap_cons, List.append_assoc] at hdrop
      exact first.perform_reading hdrop
    cases n with
    | zero =>
      obtain rfl : first = item := Option.some.inj hitem
      refine ⟨s, r, rfl, rfl, rfl, ?_, ?_, hpos, ?_, ?_⟩
      · rw [hwrite]
      · rw [hread]
      · rw [hwrite, ← hlength]
        rfl
      · rw [hread]
        rfl
    | succ n =>
      have hbuffer := Sink.length_buffer_overwrite hfirst
      have hmoved : (s.overwrite first.layout).pos = s.pos + first.layout.length := rfl
      have hlevel : (s.overwrite first.layout).pos = (r.advance first.size).source.pos := by
        rw [hmoved, hlength, hpos]
        rfl
      rw [List.map_cons, Sink.finish, hwrite] at hbytes
      obtain ⟨s', r', hwrites, hreads, hposition, hreadBack⟩ :=
        ih (s := s.overwrite first.layout) (r := r.advance first.size) (by omega) hlevel hbytes
          n item hitem
      have htake : size ((first :: script).take (n + 1)) = first.size + size (script.take n) :=
        List.sum_cons
      refine ⟨s', r', ?_, ?_, by omega, hreadBack⟩
      · rw [List.map_cons, Sink.trace, List.getElem?_cons_succ, Sink.Step.after, hwrite]
        exact hwrites
      · rw [List.map_cons, Reader.trace, List.getElem?_cons_succ, Reader.Step.after, hread]
        exact hreads

/-- **A script is read back as it was written,** item by item, from any
buffer with room for all of it. Each item is written, and read as what it
shows, and moves both the sink and the source from behind the items before
it by its own size. -/
theorem read_written (order : ByteOrder) (script : List (Item order)) (buffer : Bytes)
    (hroom : size script ≤ buffer.length) :
    let start : Sink order := .ofBuffer buffer
    let written := (start.finish (script.map Item.writing)).buffer
    let writes := start.trace (script.map Item.writing)
    let reads := (Reader.ofBytes written).trace (script.map Item.reading)
    ∀ (n : Nat) (item : Item order), script[n]? = some item → ∃ s r,
      writes[n]? = some ⟨item.writing, s⟩ ∧ reads[n]? = some ⟨item.reading, r⟩ ∧
      s.pos = size (script.take n) ∧ item.ReadBack s r := by
  intro start written writes reads n item hitem
  have hstart : start.pos + size script ≤ start.buffer.length := by
    change 0 + size script ≤ buffer.length
    omega
  obtain ⟨s, r, hwrites, hreads, hposition, hreadBack⟩ :=
    readBack_of_room script (r := Reader.ofBytes written) hstart rfl rfl n item hitem
  exact ⟨s, r, hwrites, hreads, hposition.trans (Nat.zero_add _), hreadBack⟩

/-- A cross that does not show all of itself. -/
def partlyShown : Item .little :=
  .message (f := .orderEntry) (k := .newOrderCross) Family.partlyShown
    ({} : OrderEntry.NewOrderCross) ⟨by decide, by decide⟩

/-- A set. -/
def members : Item .little := .field (.ofList [0, 9] : Presence .w16)

/-- A word, the cross, three bytes and the set. -/
def aroundCross : List (Item .little) :=
  [.field (0x0102 : UInt16), partlyShown, .field (⟨[1, 2, 3], rfl⟩ : Octets 3), members]

theorem read_written_aroundCross :
    size aroundCross = 112 ∧ partlyShown.size = 105 ∧
    ∃ (s s' : Sink .little) (r r' : Reader .little),
      s.pos = 2 ∧ partlyShown.ReadBack s r ∧ s'.pos = 110 ∧ members.ReadBack s' r' := by
  have hread := read_written .little aroundCross (List.replicate 113 7) (by decide)
  obtain ⟨s, r, -, -, hpos, hreadBack⟩ := hread 1 partlyShown rfl
  obtain ⟨s', r', -, -, hpos', hreadBack'⟩ := hread 3 members rfl
  exact ⟨by decide, by decide, s, s', r, r', hpos, hreadBack, hpos', hreadBack'⟩

end Script

end TradeWire
