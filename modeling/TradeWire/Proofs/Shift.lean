import TradeWire.Proofs.Dispatching
/-!
# Shift — a message is read and written alike wherever it stands

A message in the middle of a buffer is the message at the front of what
begins there. No decoder is told where its source stands, so bytes that
have been read already can be put in front of a source, or taken away,
and every run is the same run, further on or further back
(`run_prepend`); and a run of writes leaves what is in front of it alone
(`writeAll_prepend`).

Two checks could have been an exception, for they look at more than the
bytes they take. The length a message announces is held against how far
its source has come since it began, and the room for the legs of a cross
against what is left. Both are differences of positions. A decoder counts
what it takes, and that this is the first of them is a theorem: whoever
remembers where a message began and compares positions at its end
(`readFramed`) reads the same (`run_framed`), and wherever it stands.
-/

namespace TradeWire

/-! ## Sources -/

namespace Source

variable {order : ByteOrder}

/-- The source with these bytes in front of its own, all of them read. -/
def prepend (s : Source order) (before : Bytes) : Source order where
  bytes := before ++ s.bytes
  pos := before.length + s.pos

theorem remaining_prepend (s : Source order) (before : Bytes) :
    (s.prepend before).remaining = s.remaining := by
  simp only [remaining, prepend, List.length_append]
  omega

theorem advance_prepend (s : Source order) (before : Bytes) (n : Nat) :
    (s.prepend before).advance n = (s.advance n).prepend before := by
  unfold advance prepend
  rw [Nat.add_assoc]

/-- What can be seen ahead is the same. -/
theorem peek_prepend (s : Source order) (before : Bytes) (n : Nat) :
    (s.prepend before).peek n = s.peek n := by
  have hbytes : (s.prepend before).bytes.drop (s.prepend before).pos = s.bytes.drop s.pos :=
    List.drop_length_add_append ..
  have hremaining := s.remaining_prepend before
  cases hpeek : s.peek n with
  | error fault =>
    obtain ⟨rfl, hlacks⟩ := (s.peek_eq_error_iff n fault).1 hpeek
    exact ((s.prepend before).peek_eq_error_iff n _).2 ⟨rfl, hremaining ▸ hlacks⟩
  | ok octets =>
    refine peek_of_le (hremaining ▸ le_remaining_of_peek hpeek) ?_
    rw [hbytes, toList_of_peek hpeek]

/-- A source is what is in front of its position, put in front of the
rest. -/
theorem prepend_drop (s : Source order) (h : s.pos ≤ s.bytes.length) :
    (ofBytes (s.bytes.drop s.pos) : Source order).prepend (s.bytes.take s.pos) = s := by
  have hfront : (s.bytes.take s.pos).length = s.pos := List.length_take_of_le h
  unfold prepend ofBytes
  rw [List.take_append_drop, hfront, Nat.add_zero]

end Source

namespace Decoder

variable {order : ByteOrder} {α β : Type}

/-- A condition holds, or the decoder rejects where it is. -/
theorem run_require_bind (p : Prop) [Decidable p] (f : Unit → Decoder order β)
    (s : Source order) :
    (require p >>= f).run s = if p then (f ()).run s else (.error .badValue, s) := by
  unfold require
  split <;> rfl

/-- **A decoder runs alike wherever its source stands.** -/
theorem run_prepend (d : Decoder order α) (s : Source order) (before : Bytes) :
    d.run (s.prepend before) = ((d.run s).1, (d.run s).2.prepend before) := by
  induction d generalizing s with
  | done _ => rfl
  | reject => rfl
  | take n next ih =>
    rw [run_take, run_take, s.peek_prepend]
    cases s.peek n with
    | error fault => rfl
    | ok octets =>
      dsimp only
      rw [s.advance_prepend]
      exact ih octets (s.advance n)
  | room n next ih =>
    rw [run, run, s.remaining_prepend]
    split
    · exact ih s
    · rfl

/-- So it runs as on what begins at the position. -/
theorem run_eq_prepend (d : Decoder order α) {s : Source order} (h : s.pos ≤ s.bytes.length) :
    d.run s = ((d.run (.ofBytes (s.bytes.drop s.pos))).1,
      (d.run (.ofBytes (s.bytes.drop s.pos))).2.prepend (s.bytes.take s.pos)) := by
  have hrun := d.run_prepend (.ofBytes (s.bytes.drop s.pos)) (s.bytes.take s.pos)
  rwa [s.prepend_drop h] at hrun

end Decoder

/-! ## Sinks -/

namespace Sink

variable {order : ByteOrder}

/-- The sink with these bytes in front of its own, all of them written. -/
def prepend (s : Sink order) (before : Bytes) : Sink order where
  buffer := before ++ s.buffer
  pos := before.length + s.pos

theorem remaining_prepend (s : Sink order) (before : Bytes) :
    (s.prepend before).remaining = s.remaining := by
  simp only [remaining, prepend, List.length_append]
  omega

theorem prepend_drop (s : Sink order) (h : s.pos ≤ s.buffer.length) :
    (ofBuffer (s.buffer.drop s.pos) : Sink order).prepend (s.buffer.take s.pos) = s := by
  have hfront : (s.buffer.take s.pos).length = s.pos := List.length_take_of_le h
  unfold prepend ofBuffer
  rw [List.take_append_drop, hfront, Nat.add_zero]

theorem write_prepend (s : Sink order) (before bytes : Bytes) :
    (s.prepend before).write bytes = ((s.write bytes).1, (s.write bytes).2.prepend before) := by
  unfold write
  rw [s.remaining_prepend]
  split
  · have hfront : (before ++ s.buffer).take (before.length + s.pos) =
        before ++ s.buffer.take s.pos := List.take_length_add_append ..
    have hbehind : (before ++ s.buffer).drop (before.length + (s.pos + bytes.length)) =
        s.buffer.drop (s.pos + bytes.length) := List.drop_length_add_append ..
    simp only [prepend, hfront, Nat.add_assoc, hbehind, List.append_assoc]
  · rfl

/-- **So does a run of writes,** and what is in front of it stays. -/
theorem writeAll_prepend (s : Sink order) (before : Bytes) (fields : List Bytes) :
    (s.prepend before).writeAll fields =
      ((s.writeAll fields).1, (s.writeAll fields).2.prepend before) := by
  induction fields generalizing s with
  | nil => rfl
  | cons bytes fields ih =>
    rw [writeAll, writeAll, s.write_prepend]
    rcases s.write bytes with ⟨_ | _, t⟩
    · rfl
    · exact ih t

end Sink

namespace Message

variable {order : ByteOrder} {M : Type} [Message order M]

theorem write_prepend (record : M) (s : Sink order) (before : Bytes) :
    write record (s.prepend before) =
      ((write record s).1, (write record s).2.prepend before) := by
  unfold write
  cases fields? record with
  | none => rfl
  | some fields => exact s.writeAll_prepend before fields

end Message

/-! ## Messages -/

namespace OrderEntry

open Decoder Message

section Framed

variable {α : Type} (type : UInt8) (body : Header → Decoder .little α)

/-- **A whole message, read by positions.** The source is remembered as it
stood when the message began. How far it has come since is held against the
length the message announces, behind its last byte. -/
def readFramed (start : Source .little) : Except Fault α × Source .little :=
  match (preamble type).run start with
  | (.ok (length, header), s) =>
    match (body header).run s with
    | (.ok value, s) =>
      if s.pos - start.pos = markerSize + length.toNat then (.ok value, s)
      else (.error .badValue, s)
    | (.error fault, s) => (.error fault, s)
  | (.error fault, s) => (.error fault, s)

/-- **To count what is taken is to compare positions,** wherever the message
began. -/
theorem run_framed (s : Source .little) : (framed type body).run s = readFramed type body s := by
  unfold framed readFramed
  rw [run_bind, run_measured, run_bind]
  rcases (preamble type).run s with ⟨_ | ⟨length, header⟩, t⟩
  · rfl
  · dsimp only
    rw [run_bind]
    rcases (body header).run t with ⟨_ | value, u⟩
    · rfl
    · exact run_require_bind (u.pos - s.pos = markerSize + length.toNat)
        (fun _ => (pure value : Decoder .little α)) u

/-- **The positions compared are further on by the same number of bytes,** so
the comparison comes out the same. -/
theorem readFramed_prepend (s : Source .little) (before : Bytes) :
    readFramed type body (s.prepend before) =
      ((readFramed type body s).1, (readFramed type body s).2.prepend before) := by
  unfold readFramed
  rw [run_prepend]
  rcases (preamble type).run s with ⟨_ | ⟨length, header⟩, t⟩
  · rfl
  · dsimp only
    rw [run_prepend]
    rcases (body header).run t with ⟨_ | value, u⟩
    · rfl
    · have hcome : (u.prepend before).pos - (s.prepend before).pos = u.pos - s.pos :=
        Nat.add_sub_add_left before.length u.pos s.pos
      dsimp only
      rw [hcome]
      split <;> rfl

end Framed

/-- **A message that is read by positions is read alike wherever it stands.**
Reading any order-entry message, over any record, is to remember the
position, to read preamble and body, and to compare positions with the
length announced. From a position within some bytes this comes out as from
the first of those that begin there, as far behind that position. -/
theorem readFramed_position_independent (k : Kind) (prior : k.Record) :
    ∃ body : Header → Decoder .little k.Record,
      (∀ s, (refill prior).run s = readFramed (Message.type k.Record) body s) ∧
      ∀ (bytes : Bytes) (p : Nat), p ≤ bytes.length →
        let here := readFramed (Message.type k.Record) body ⟨bytes, p⟩
        let fresh := readFramed (Message.type k.Record) body (.ofBytes (bytes.drop p))
        here.1 = fresh.1 ∧ here.2 = fresh.2.prepend (bytes.take p) ∧
          here.2.pos = p + fresh.2.pos := by
  obtain ⟨body, hbody⟩ := exists_refill_eq_framed k prior
  refine ⟨body, fun s => by rw [hbody, run_framed], fun bytes p hp => ?_⟩
  have hfront : (bytes.take p).length = p := List.length_take_of_le hp
  have hread := readFramed_prepend (Message.type k.Record) body (.ofBytes (bytes.drop p))
    (bytes.take p)
  rw [Source.prepend_drop (⟨bytes, p⟩ : Source .little) hp] at hread
  intro here fresh
  have hsource : here.2 = fresh.2.prepend (bytes.take p) := congrArg (fun found => found.2) hread
  refine ⟨congrArg (fun found => found.1) hread, hsource, ?_⟩
  rw [hsource, Source.prepend, hfront]

end OrderEntry

namespace Family

open Message

/-- **A message is read and written alike wherever it stands.** From a
position within some bytes it is read as from the first of those that
begin there: with the same fault, or as the same record; and the source is
left as far behind that position as behind the first byte. So it is
written: with the same result, as far on, and as the same bytes over what
began there. What stands in front stays. -/
theorem position_independent (f : Family) (k : f.Kind) (bytes : Bytes) (p : Nat)
    (hp : p ≤ bytes.length) :
    (∀ prior : f.Record k,
      let here := (refill prior).run (⟨bytes, p⟩ : Source f.order)
      let fresh := (refill prior).run (.ofBytes (bytes.drop p))
      here.1 = fresh.1 ∧ here.2.bytes = bytes ∧ here.2.pos = p + fresh.2.pos) ∧
    ∀ record : f.Record k,
      let here := write record (⟨bytes, p⟩ : Sink f.order)
      let fresh := write record (.ofBuffer (bytes.drop p))
      here.1 = fresh.1 ∧ here.2.buffer = bytes.take p ++ fresh.2.buffer ∧
        here.2.pos = p + fresh.2.pos := by
  have hfront : (bytes.take p).length = p := List.length_take_of_le hp
  constructor
  · intro prior here fresh
    have hrun := (refill prior).run_eq_prepend (s := (⟨bytes, p⟩ : Source f.order)) hp
    have hresult : here.1 = fresh.1 := congrArg (fun result => result.1) hrun
    have hpos : here.2.pos = (bytes.take p).length + fresh.2.pos :=
      congrArg (fun result => result.2.pos) hrun
    rw [hfront] at hpos
    exact ⟨hresult, (refill prior).bytes_run ⟨bytes, p⟩, hpos⟩
  · intro record here fresh
    have hsink := Sink.prepend_drop (⟨bytes, p⟩ : Sink f.order) hp
    have hwrite := write_prepend record (.ofBuffer (bytes.drop p)) (bytes.take p)
    rw [hsink] at hwrite
    have hresult : here.1 = fresh.1 := congrArg (fun result => result.1) hwrite
    have hbuffer : here.2.buffer = bytes.take p ++ fresh.2.buffer :=
      congrArg (fun result => result.2.buffer) hwrite
    have hpos : here.2.pos = (bytes.take p).length + fresh.2.pos :=
      congrArg (fun result => result.2.pos) hwrite
    rw [hfront] at hpos
    exact ⟨hresult, hbuffer, hpos⟩

/-- A heartbeat behind two other bytes. -/
def heartbeatBehindTwo : Bytes := [7, 7, 0xBA, 0xBA, 8, 0, 0x03, 1, 2, 0, 0, 0]

/-- The record it stands for. -/
def heartbeat : OrderEntry.ClientHeartbeat where
  header := { matchingUnit := 1, sequenceNumber := 2 }

theorem position_independent_heartbeat :
    2 ≤ heartbeatBehindTwo.length ∧
    ((refill ({} : OrderEntry.ClientHeartbeat)).run ⟨heartbeatBehindTwo, 2⟩).1 = .ok heartbeat ∧
    ((refill ({} : OrderEntry.ClientHeartbeat)).run ⟨heartbeatBehindTwo, 2⟩).2.pos = 2 + 10 ∧
    (write heartbeat ⟨List.replicate 9 5, 2⟩).1 = .error .shortBuffer ∧
    (write heartbeat ⟨List.replicate 9 5, 2⟩).2.buffer =
      [5, 5] ++ [0xBA, 0xBA, 8, 0, 0x03, 1] ++ [5] := by
  have hread : 2 ≤ heartbeatBehindTwo.length := by decide
  have hwritten : 2 ≤ (List.replicate 9 (5 : UInt8)).length := by decide
  obtain ⟨hreads, -⟩ := position_independent orderEntry .clientHeartbeat _ 2 hread
  obtain ⟨-, hwrites⟩ := position_independent orderEntry .clientHeartbeat _ 2 hwritten
  obtain ⟨hrecord, -, hpos⟩ := hreads ({} : OrderEntry.ClientHeartbeat)
  obtain ⟨hfault, hbuffer, -⟩ := hwrites heartbeat
  exact ⟨hread, hrecord, hpos, hfault, hbuffer⟩

end Family

end TradeWire
