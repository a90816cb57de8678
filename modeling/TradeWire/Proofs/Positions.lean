import TradeWire.Family
import TradeWire.Proofs.WordSource
/-!
# Positions — what a run of reads does to a source

A reader is asked for one thing after another, whatever came of the last:
bytes, a value, a record, or to keep the source as it stands and go back to
one it has kept. A record that cannot be read leaves the source somewhere
in the middle of it, and the run goes on from there.

All that reads one thing comes down to looking ahead (`perform_eq`): it
fails for want of bytes or shows those at the position. The invariant of a
run is that the source, and every source kept, is within the bytes
(`Within`). It is also what lets the run be carried out with words of 64
bits for positions.
-/

namespace TradeWire

/-! ## Words -/

namespace Width

/-- The words of a width. -/
def Word : Width → Type
  | w8 => UInt8
  | w16 => UInt16
  | w32 => UInt32
  | w64 => UInt64

instance : (w : Width) → Field w.Word
  | w8 => inferInstanceAs (Field UInt8)
  | w16 => inferInstanceAs (Field UInt16)
  | w32 => inferInstanceAs (Field UInt32)
  | w64 => inferInstanceAs (Field UInt64)

/-- The number a word stands for. -/
def toNat : (w : Width) → w.Word → Nat
  | w8 => UInt8.toNat
  | w16 => UInt16.toNat
  | w32 => UInt32.toNat
  | w64 => UInt64.toNat

theorem size_word (w : Width) : Field.size w.Word = w.octets := by
  cases w <;> rfl

/-- A word is the number that its bytes denote. -/
theorem load_bytes (w : Width) (order : ByteOrder) (value : w.Word) :
    order.load (Field.bytes order value) = w.toNat value := by
  cases w with
  | w8 => exact (order.load_store 1 _).trans (Nat.mod_eq_of_lt (UInt8.toNat_lt value))
  | w16 => exact (order.load_store 2 _).trans (Nat.mod_eq_of_lt (UInt16.toNat_lt value))
  | w32 => exact (order.load_store 4 _).trans (Nat.mod_eq_of_lt (UInt32.toNat_lt value))
  | w64 => exact (order.load_store 8 _).trans (Nat.mod_eq_of_lt (UInt64.toNat_lt value))

end Width

/-- A decoder moves a source on over bytes that are there, wherever it
ends. -/
theorem Decoder.run_eq_advance {order : ByteOrder} {α : Type} (d : Decoder order α)
    (s : Source order) : ∃ n ≤ s.remaining, (d.run s).2 = s.advance n := by
  induction d generalizing s with
  | done _ => exact ⟨0, Nat.zero_le _, rfl⟩
  | reject => exact ⟨0, Nat.zero_le _, rfl⟩
  | take n next ih =>
    rw [run_take]
    cases hpeek : s.peek n with
    | error fault => exact ⟨0, Nat.zero_le _, rfl⟩
    | ok octets =>
      have hroom := Source.le_remaining_of_peek hpeek
      obtain ⟨m, hm, hrun⟩ := ih octets (s.advance n)
      have hleft := s.remaining_advance n
      refine ⟨n + m, by omega, ?_⟩
      dsimp only
      rw [hrun, s.advance_advance]
  | room n next ih =>
    rw [run]
    split
    · exact ih s
    · exact ⟨0, Nat.zero_le _, rfl⟩

/-! ## Readers -/

/-- **A source being read,** and the sources kept, in the order of
keeping. -/
structure Reader (order : ByteOrder) where
  source : Source order
  saved : List (Source order)

namespace Reader

variable {order : ByteOrder} {α : Type} {bytes : Bytes} {n : Nat}

/-- A reader at the first byte. -/
def ofBytes (bytes : Bytes) : Reader order := ⟨.ofBytes bytes, []⟩

/-- What comes of reading from the source. -/
def read (r : Reader order) (result : Except Fault α × Source order) :
    Except Fault α × Reader order := (result.1, { r with source := result.2 })

/-- The reader `n` bytes further on. -/
def advance (r : Reader order) (n : Nat) : Reader order := { r with source := r.source.advance n }

/-- **The source, and every source kept, is within these bytes.** -/
def Within (bytes : Bytes) (r : Reader order) : Prop :=
  ∀ s ∈ r.source :: r.saved, s.bytes = bytes ∧ s.pos ≤ bytes.length

/-- **What can be asked of a reader** in a byte order. -/
inductive Command : ByteOrder → Type 1 where
  /-- The next bytes as they are. -/
  | take {order : ByteOrder} (n : Nat) : Command order
  /-- The same, without moving. -/
  | peek {order : ByteOrder} (n : Nat) : Command order
  | skip {order : ByteOrder} (n : Nat) : Command order
  | word {order : ByteOrder} (w : Width) : Command order
  | field {order : ByteOrder} (α : Type) [Field α] : Command order
  /-- A record of the family with that order, read over another. -/
  | message {f : Family} {k : f.Kind} (prior : f.Record k) : Command f.order
  /-- Keeps the source as it stands. -/
  | save {order : ByteOrder} : Command order
  /-- Goes back to a source kept; without one of this number, nowhere. -/
  | restore {order : ByteOrder} (i : Nat) : Command order

namespace Command

/-- What a command is answered with. -/
def Answer : Command order → Type
  | take n | peek n => Octets n
  | skip _ | save | restore _ => Unit
  | word w => w.Word
  | field α => α
  | @message f k _ => f.Record k

/-- What comes of a command, and the reader afterwards. -/
def perform : (command : Command order) → Reader order →
    Except Fault command.Answer × Reader order
  | take n, r => r.read (r.source.take n)
  | peek n, r => (r.source.peek n, r)
  | skip n, r => r.read (r.source.skip n)
  | word w, r => r.read ((Decoder.field : Decoder _ w.Word).run r.source)
  | field α, r => r.read ((Decoder.field : Decoder _ α).run r.source)
  | message prior, r => r.read ((Message.refill prior).run r.source)
  | save, r => (.ok (), { r with saved := r.saved ++ [r.source] })
  | restore i, r => (.ok (), { r with source := r.saved.getD i r.source })

/-- How many bytes a command is about that reads one thing. -/
def size? : Command order → Option Nat
  | take n | peek n | skip n => some n
  | word w => some w.octets
  | field α => some (Field.size α)
  | message _ | save | restore _ => none

/-- All but looking ahead moves over what it reads. -/
def moves : Command order → Bool
  | peek _ => false
  | _ => true

/-- Goes back to a source kept. -/
def Restores : Command order → Prop
  | restore _ => True
  | _ => False

/-- **The answer is what these bytes say.** -/
def Yields : (command : Command order) → command.Answer → Bytes → Prop
  | take _, octets, chunk | peek _, octets, chunk => octets.toList = chunk
  | word w, value, chunk => w.toNat value = order.load chunk
  | field α, value, chunk => Field.bytes (α := α) order value = chunk
  | skip _, _, _ | message _, _, _ | save, _, _ | restore _, _, _ => True

end Command

/-- **A command, and the reader it was put to.** -/
structure Step (order : ByteOrder) where
  command : Command order
  before : Reader order

namespace Step

/-- What came of the command. -/
def outcome (step : Step order) : Except Fault step.command.Answer :=
  (step.command.perform step.before).1

/-- The reader afterwards. -/
def after (step : Step order) : Reader order := (step.command.perform step.before).2

/-- **What a step does within these bytes.** -/
structure InBounds (bytes : Bytes) (step : Step order) : Prop where
  bytes_after : step.after.source.bytes = bytes
  pos_le : step.after.source.pos ≤ bytes.length
  pos_add_remaining : step.after.source.pos + step.after.source.remaining = bytes.length
  /-- One thing fails to be read for want of its bytes, and of nothing
  else. -/
  fails_iff : ∀ n, step.command.size? = some n → ∀ fault,
    step.outcome = .error fault ↔ fault = .shortBuffer ∧ step.before.source.remaining < n
  /-- Then nothing has moved. -/
  unmoved : ∀ n, step.command.size? = some n → ∀ fault, step.outcome = .error fault →
    step.after = step.before
  /-- Otherwise it is what stands at the position. -/
  yields : ∀ n, step.command.size? = some n → ∀ answer, step.outcome = .ok answer →
    step.command.Yields answer ((bytes.drop step.before.source.pos).take n) ∧
      step.after = if step.command.moves then step.before.advance n else step.before
  /-- Only a source kept can be further back. A record does not go back,
  be it read or not. -/
  forward : ¬ step.command.Restores → step.before.source.pos ≤ step.after.source.pos

end Step

/-- **The steps of a run,** each from where the last one left the reader,
whatever came of it. -/
def trace (r : Reader order) : List (Command order) → List (Step order)
  | [] => []
  | command :: rest =>
    let step : Step order := ⟨command, r⟩
    step :: step.after.trace rest

theorem map_command_trace (r : Reader order) (commands : List (Command order)) :
    (r.trace commands).map Step.command = commands := by
  induction commands generalizing r with
  | nil => rfl
  | cons command commands ih => rw [trace, List.map_cons, ih]

/-! ## One step -/

/-- **Whatever reads one thing looks ahead** that far, and makes its answer
of what it sees. -/
theorem Command.perform_eq (command : Command order) (h : command.size? = some n)
    (r : Reader order) :
    ∃ value : Octets n → command.Answer,
      (∀ octets, command.Yields (value octets) octets.toList) ∧
      command.perform r =
        match r.source.peek n with
        | .ok octets => (.ok (value octets), if command.moves then r.advance n else r)
        | .error fault => (.error fault, r) := by
  cases command with
  | take m =>
    obtain rfl := Option.some.inj h
    refine ⟨id, fun _ => rfl, ?_⟩
    rw [perform, Source.take]
    cases r.source.peek m <;> rfl
  | peek m =>
    obtain rfl := Option.some.inj h
    refine ⟨id, fun _ => rfl, ?_⟩
    rw [perform]
    cases r.source.peek m <;> rfl
  | skip m =>
    obtain rfl := Option.some.inj h
    refine ⟨fun _ => (), fun _ => trivial, ?_⟩
    rw [perform, Source.skip, Source.peek]
    by_cases hroom : m ≤ r.source.remaining
    · rw [if_pos hroom, dif_pos hroom]
      rfl
    · rw [if_neg hroom, dif_neg hroom]
      rfl
  | word w =>
    obtain rfl : Field.size w.Word = n := w.size_word.trans (Option.some.inj h)
    refine ⟨Field.decode order, fun octets => ?_, ?_⟩
    · have hbytes : Field.bytes order (Field.decode (α := w.Word) order octets) = octets.toList :=
        congrArg Octets.toList (Field.encode_decode order octets)
      exact (w.load_bytes order _).symm.trans (congrArg order.load hbytes)
    · rw [perform, Decoder.field, Decoder.run_take]
      cases r.source.peek (Field.size w.Word) <;> rfl
  | field α =>
    obtain rfl := Option.some.inj h
    refine ⟨Field.decode order, fun octets => ?_, ?_⟩
    · exact congrArg Octets.toList (Field.encode_decode order octets)
    · rw [perform, Decoder.field, Decoder.run_take]
      cases r.source.peek (Field.size α) <;> rfl
  | message _ | save | restore _ => cases h

/-- **A command moves the source on,** as far as there are bytes; or keeps
it; or goes back. -/
theorem Command.perform_cases (command : Command order) (r : Reader order) :
    (∃ n ≤ r.source.remaining, (command.perform r).2 = r.advance n) ∨
    (command.perform r).2 = { r with saved := r.saved ++ [r.source] } ∨
    command.Restores ∧ ∃ s ∈ r.source :: r.saved, (command.perform r).2 = { r with source := s } := by
  cases hsize : command.size? with
  | some n =>
    obtain ⟨value, -, hperform⟩ := command.perform_eq hsize r
    left
    rw [hperform]
    cases hpeek : r.source.peek n with
    | error fault => exact ⟨0, Nat.zero_le _, rfl⟩
    | ok octets =>
      cases hmoves : command.moves with
      | true => exact ⟨n, Source.le_remaining_of_peek hpeek, rfl⟩
      | false => exact ⟨0, Nat.zero_le _, rfl⟩
  | none =>
    cases command with
    | message prior =>
      left
      obtain ⟨n, hn, hrun⟩ := (Message.refill prior).run_eq_advance r.source
      refine ⟨n, hn, ?_⟩
      rw [advance, ← hrun]
      rfl
    | save => exact .inr (.inl rfl)
    | restore i =>
      refine .inr (.inr ⟨trivial, r.saved.getD i r.source, ?_, rfl⟩)
      rw [List.getD_eq_getElem?_getD]
      cases hkept : r.saved[i]? with
      | none => exact List.mem_cons_self
      | some s => exact List.mem_cons_of_mem _ (List.mem_of_getElem? hkept)
    | take _ | peek _ | skip _ | word _ | field _ => cases hsize

/-- No command leaves the bytes. -/
theorem Command.within_perform (command : Command order) {r : Reader order} (h : r.Within bytes) :
    (command.perform r).2.Within bytes := by
  obtain ⟨hsource, hsaved⟩ := List.forall_mem_cons.1 h
  rcases command.perform_cases r with ⟨n, hn, hafter⟩ | hafter | ⟨-, s, hs, hafter⟩
  · have hroom : n ≤ r.source.bytes.length - r.source.pos := hn
    rw [hsource.1] at hroom
    have hmoved : r.source.pos + n ≤ bytes.length := by omega
    rw [hafter]
    exact List.forall_mem_cons.2 ⟨⟨hsource.1, hmoved⟩, hsaved⟩
  · rw [hafter]
    exact List.forall_mem_cons.2 ⟨hsource, List.forall_mem_append.2
      ⟨hsaved, List.forall_mem_singleton.2 hsource⟩⟩
  · rw [hafter]
    exact List.forall_mem_cons.2 ⟨h s hs, hsaved⟩

namespace Step

section Primitive

variable {step : Step order} {fault : Fault} (hsize : step.command.size? = some n)
include hsize

/-- Reading one thing fails as looking ahead does. -/
theorem outcome_eq_error_iff :
    step.outcome = .error fault ↔ fault = .shortBuffer ∧ step.before.source.remaining < n := by
  obtain ⟨value, -, hperform⟩ := step.command.perform_eq hsize step.before
  rw [← Source.peek_eq_error_iff, outcome, hperform]
  cases step.before.source.peek n with
  | ok octets => simp
  | error cause => simp

theorem after_of_error (h : step.outcome = .error fault) : step.after = step.before := by
  obtain ⟨value, -, hperform⟩ := step.command.perform_eq hsize step.before
  rw [outcome, hperform] at h
  rw [after, hperform]
  cases hpeek : step.before.source.peek n with
  | ok octets => simp [hpeek] at h
  | error cause => rfl

/-- What is read is what is seen ahead. -/
theorem yields_of_ok {answer : step.command.Answer} (h : step.outcome = .ok answer) :
    step.command.Yields answer
      ((step.before.source.bytes.drop step.before.source.pos).take n) ∧
    step.after = if step.command.moves then step.before.advance n else step.before := by
  obtain ⟨value, hyields, hperform⟩ := step.command.perform_eq hsize step.before
  rw [outcome, hperform] at h
  rw [after, hperform]
  cases hpeek : step.before.source.peek n with
  | ok octets =>
    simp only [hpeek, Except.ok.injEq] at h
    rw [← h, ← Source.toList_of_peek hpeek]
    exact ⟨hyields octets, rfl⟩
  | error cause => simp [hpeek] at h

end Primitive

theorem pos_le_after {step : Step order} (h : ¬ step.command.Restores) :
    step.before.source.pos ≤ step.after.source.pos := by
  rw [after]
  rcases step.command.perform_cases step.before with ⟨n, -, hmoved⟩ | hkept | ⟨hrestores, -⟩
  · rw [hmoved]
    exact Nat.le_add_right _ n
  · exact Nat.le_of_eq (by rw [hkept])
  · exact absurd hrestores h

/-- **Every step keeps in bounds,** from a reader that is. -/
theorem inBounds (step : Step order) (h : step.before.Within bytes) : step.InBounds bytes := by
  have hbefore := h step.before.source List.mem_cons_self
  have hafter := step.command.within_perform h step.after.source List.mem_cons_self
  have hremaining : step.after.source.remaining =
      step.after.source.bytes.length - step.after.source.pos := rfl
  rw [hafter.1] at hremaining
  exact {
    bytes_after := hafter.1
    pos_le := hafter.2
    pos_add_remaining := by omega
    fails_iff := fun n hsize fault => outcome_eq_error_iff hsize
    unmoved := fun n hsize fault hfault => after_of_error hsize hfault
    yields := fun n hsize answer hanswer => hbefore.1 ▸ yields_of_ok hsize hanswer
    forward := pos_le_after }

end Step

/-! ## Runs -/

theorem inBounds_of_mem_trace {r : Reader order} (h : r.Within bytes)
    (commands : List (Command order)) : ∀ step ∈ r.trace commands, step.InBounds bytes := by
  induction commands generalizing r with
  | nil => exact List.forall_mem_nil _
  | cons command commands ih =>
    exact List.forall_mem_cons.2
      ⟨Step.inBounds ⟨command, r⟩ h, ih (command.within_perform h)⟩

/-- **What a run shows of a step:** the command, what came of it, and the
position behind it. -/
structure Event (order : ByteOrder) where
  command : Command order
  outcome : Except Fault command.Answer
  pos : Nat

/-- What a step shows. -/
def Step.event (step : Step order) : Event order :=
  ⟨step.command, step.outcome, step.after.source.pos⟩

end Reader

/-! ## Runs on words -/

/-- **A reader whose positions are words.** -/
structure WordReader where
  source : WordSource
  saved : List WordSource

namespace WordReader

open Reader (Command Event)

variable {order : ByteOrder} {α : Type} {bytes : Bytes}

/-- A reader at the first byte. -/
def ofBytes (bytes : Bytes) : WordReader := ⟨⟨bytes, 0⟩, []⟩

/-- What comes of reading from the source. -/
def read (m : WordReader) (result : Option (Except Fault α × WordSource)) :
    Option (Except Fault α × WordReader) :=
  result.map fun (outcome, source) => (outcome, { m with source })

/-- What comes of a command, unless the machine halts on it. -/
def perform : (command : Command order) → WordReader →
    Option (Except Fault command.Answer × WordReader)
  | Command.take n, m => m.read (m.source.take n)
  | Command.peek n, m => m.read ((m.source.peek n).map fun outcome => (outcome, m.source))
  | Command.skip n, m => m.read (m.source.skip n)
  | @Command.word order w, m =>
    m.read (m.source.run m.source.pos (Decoder.field : Decoder order w.Word))
  | @Command.field order α _, m =>
    m.read (m.source.run m.source.pos (Decoder.field : Decoder order α))
  | @Command.message f k prior, m =>
    m.read (m.source.run m.source.pos (Message.refill prior : Decoder f.order (f.Record k)))
  | Command.save, m => some (.ok (), { m with saved := m.saved ++ [m.source] })
  | Command.restore i, m => some (.ok (), { m with source := m.saved.getD i m.source })

/-- What a run shows, unless the machine halts in it. -/
def events (m : WordReader) : List (Command order) → Option (List (Event order))
  | [] => some []
  | command :: rest =>
    match perform command m with
    | some (outcome, after) =>
      (after.events rest).map fun events => ⟨command, outcome, after.source.pos.toNat⟩ :: events
    | none => none

/-- A reader, its positions as words. -/
def ofReader (r : Reader order) : WordReader :=
  ⟨.ofSource r.source, r.saved.map WordSource.ofSource⟩

/-- **A command is carried out on words as it is on numbers.** -/
theorem perform_ofReader (command : Command order) {r : Reader order} (h : r.Within bytes)
    (hsize : bytes.length < UInt64.size) :
    perform command (ofReader r) =
      some ((command.perform r).1, ofReader (command.perform r).2) := by
  obtain ⟨hbytes, hpos⟩ := h r.source List.mem_cons_self
  rw [← hbytes] at hpos hsize
  -- a message is measured from where it begins, so that is the start
  have hrun : ∀ {α : Type} (d : Decoder order α),
      (WordSource.ofSource r.source).run (WordSource.ofSource r.source).pos d =
        some ((d.run r.source).1, .ofSource (d.run r.source).2) :=
    fun d => WordSource.run_ofSource d hpos hsize (Nat.le_refl _)
  cases command with
  | take n => exact congrArg (ofReader r).read (WordSource.take_ofSource hpos hsize n)
  | peek n =>
    exact congrArg (fun seen => (ofReader r).read (seen.map (·, (ofReader r).source)))
      (WordSource.peek_ofSource hpos hsize n)
  | skip n => exact congrArg (ofReader r).read (WordSource.skip_ofSource hpos hsize n)
  | word w => exact congrArg (ofReader r).read (hrun (Decoder.field : Decoder order w.Word))
  | field α => exact congrArg (ofReader r).read (hrun (Decoder.field : Decoder order α))
  | message prior => exact congrArg (ofReader r).read (hrun (Message.refill prior))
  | save =>
    have hsaved : (ofReader r).saved ++ [(ofReader r).source] =
        (r.saved ++ [r.source]).map WordSource.ofSource := by
      rw [List.map_append]
      rfl
    exact congrArg (fun saved => some (Except.ok (), { ofReader r with saved })) hsaved
  | restore i =>
    have hkept : (ofReader r).saved.getD i (ofReader r).source =
        WordSource.ofSource (r.saved.getD i r.source) := by
      rw [List.getD_eq_getElem?_getD, List.getD_eq_getElem?_getD, ofReader, List.getElem?_map,
        Option.getD_map]
    exact congrArg (fun source => some (Except.ok (), { ofReader r with source })) hkept

/-- **A run on words shows what the run shows,** and the machine never
halts. -/
theorem events_ofReader {r : Reader order} (h : r.Within bytes) (hsize : bytes.length < UInt64.size)
    (commands : List (Command order)) :
    (ofReader r).events commands = some ((r.trace commands).map Reader.Step.event) := by
  induction commands generalizing r with
  | nil => rfl
  | cons command commands ih =>
    have hnext := command.within_perform h
    have hafter := hnext (command.perform r).2.source List.mem_cons_self
    have hpos : (WordSource.ofSource (command.perform r).2.source).pos.toNat =
        (command.perform r).2.source.pos :=
      WordSource.toNat_pos_ofSource (by rw [hafter.1]; exact hafter.2) (by rw [hafter.1]; exact hsize)
    rw [events, perform_ofReader command h hsize]
    dsimp only
    rw [ih hnext, Option.map_some, ofReader, hpos]
    rfl

end WordReader

namespace Reader

variable {order : ByteOrder}

theorem within_ofBytes (bytes : Bytes) : (ofBytes bytes : Reader order).Within bytes :=
  List.forall_mem_singleton.2 ⟨rfl, Nat.zero_le _⟩

/-- **A run of reads stays within the bytes,** whatever succeeds, whatever
fails and whatever source it goes back to. One thing fails to be read where
its bytes are more than are left, which moves nothing, and otherwise is
what stands at the position; and a record does not go back. With words of
64 bits for positions the run is the same, and no sum or difference of them
wraps. -/
theorem run_in_bounds (order : ByteOrder) (bytes : Bytes) (commands : List (Command order)) :
    let steps := (ofBytes bytes : Reader order).trace commands
    steps.map Step.command = commands ∧
    (∀ step ∈ steps, step.InBounds bytes) ∧
    (bytes.length < UInt64.size →
      (WordReader.ofBytes bytes).events commands = some (steps.map Step.event)) := by
  intro steps
  exact ⟨map_command_trace _ commands, inBounds_of_mem_trace (within_ofBytes bytes) commands,
    fun hsize => WordReader.events_ofReader (within_ofBytes bytes) hsize commands⟩

/-- A number, a heartbeat that ends early, as many bytes as a word can
count, one byte, and then back to behind the number. -/
def backAndForth : List (Command .little) :=
  [.word .w16, .save, .message (f := .orderEntry) (k := .clientHeartbeat)
    ({} : OrderEntry.ClientHeartbeat), .skip (UInt64.size - 1), .take 1, .restore 0, .peek 3]

theorem run_in_bounds_backAndForth :
    ∃ (number kept half tooMany last back : Step .little) (r : Reader .little),
      (ofBytes [1, 2, 0xBA, 0xBA, 8, 0, 3, 0, 9]).trace backAndForth =
        [number, kept, half, tooMany, last, back, ⟨.peek 3, r⟩] ∧
      [number, kept, half, tooMany, last, back].map (fun step => step.after.source.pos) =
        [2, 2, 8, 8, 9, 2] ∧
      half.outcome = .error .shortBuffer ∧
      tooMany.outcome = .error .shortBuffer ∧ tooMany.after = tooMany.before ∧
      (Command.peek 3).perform r = (.ok (⟨[0xBA, 0xBA, 8], rfl⟩ : Octets 3), r) ∧
      (WordReader.ofBytes [1, 2, 0xBA, 0xBA, 8, 0, 3, 0, 9]).events backAndForth =
        some ([number, kept, half, tooMany, last, back, ⟨.peek 3, r⟩].map Step.event) := by
  obtain ⟨-, hsteps, hwords⟩ :=
    run_in_bounds .little [1, 2, 0xBA, 0xBA, 8, 0, 3, 0, 9] backAndForth
  have htooMany := hsteps _ (List.mem_of_getElem? (i := 3) rfl)
  have hfault := (htooMany.fails_iff _ rfl .shortBuffer).2 ⟨rfl, by decide⟩
  exact ⟨_, _, _, _, _, _, _, rfl, rfl, rfl, hfault, htooMany.unmoved _ rfl _ hfault, rfl,
    hwords (by decide)⟩

end Reader

end TradeWire
