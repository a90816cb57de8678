import TradeWire.Proofs.Capacity
/-!
# Conservation — what a run of writes leaves in a buffer

A sink is asked for one thing after another, whatever came of the last. A
byte string or a value is written whole or not at all. A record that does
not fit is written up to the first of its fields that does not, so a run
can go on behind half a message.

What a step contributes is the bytes between the position it began at and
the one it reached. A step overwrites exactly those (`eq_overwrite`), and
overwriting twice is overwriting once with both (`overwrite_overwrite`).
So after any run the buffer is what the steps contributed, one behind the
other, and behind that what stood there from the beginning. The invariant
that carries this is that the position is within the buffer.
-/

namespace TradeWire

namespace Sink

variable {order : ByteOrder}

/-! ## Commands -/

/-- **What can be asked of a sink** in a byte order: to write bytes as they
are, a value of a fixed size, or a record of the family with that order. -/
inductive Command : ByteOrder → Type 1 where
  | write {order : ByteOrder} (bytes : Bytes) : Command order
  | put {order : ByteOrder} {α : Type} [Field α] (value : α) : Command order
  | message {f : Family} {k : f.Kind} (record : f.Record k) : Command f.order

namespace Command

/-- What comes of a command, and the sink afterwards. -/
def perform : Command order → Sink order → Except Fault Unit × Sink order
  | write bytes, s => s.write bytes
  | put value, s => s.put value
  | message record, s => Message.write record s

/-- All the bytes a command is to write, unless it is to write a record
that breaks a rule of the format. -/
def encoding : Command order → Except Fault Bytes
  | write bytes => .ok bytes
  | put value => .ok (Field.bytes order value)
  | message record => Message.toBytes record

/-- A command to write one thing, which fits or does not. -/
def Primitive : Command order → Prop
  | write _ | put _ => True
  | message _ => False

/-- **What a command contributes,** by what comes of it and how much room
there was. -/
inductive Contributes (command : Command order) (s : Sink order) :
    Except Fault Unit → Bytes → Prop where
  /-- Its encoding, which fits. -/
  | whole {bytes : Bytes} (encoding : command.encoding = .ok bytes)
      (room : bytes.length ≤ s.remaining) : Contributes command s (.ok ()) bytes
  /-- Nothing, where one thing does not fit. -/
  | nothing {bytes : Bytes} (primitive : command.Primitive)
      (encoding : command.encoding = .ok bytes) (lacks : s.remaining < bytes.length) :
      Contributes command s (.error .shortBuffer) []
  /-- Nothing, where a record breaks a rule. -/
  | refused (encoding : command.encoding = .error .badValue) :
      Contributes command s (.error .badValue) []
  /-- A part of a record that does not fit, and not all of it. -/
  | cut {part rest : Bytes} (record : ¬ command.Primitive)
      (encoding : command.encoding = .ok (part ++ rest)) (proper : rest ≠ [])
      (lacks : s.remaining < (part ++ rest).length) :
      Contributes command s (.error .shortBuffer) part

end Command

/-- **A command, and the sink it was put to.** -/
structure Step (order : ByteOrder) where
  command : Command order
  before : Sink order

namespace Step

/-- What came of the command. -/
def outcome (step : Step order) : Except Fault Unit := (step.command.perform step.before).1

/-- The sink afterwards. -/
def after (step : Step order) : Sink order := (step.command.perform step.before).2

/-- The bytes between the position before and the position after. -/
def contributed (step : Step order) : Bytes :=
  (step.after.buffer.take step.after.pos).drop step.before.pos

/-- **What a step does to a buffer of this size.** -/
structure Conserves (size : Nat) (step : Step order) : Prop where
  length_buffer : step.after.buffer.length = size
  pos_le : step.after.pos ≤ size
  pos_add_remaining : step.after.pos + step.after.remaining = size
  /-- No step goes back. -/
  forward : step.before.pos ≤ step.after.pos
  contributes : step.command.Contributes step.before step.outcome step.contributed
  /-- One thing that does not fit leaves the sink as it was. -/
  unchanged : step.command.Primitive → ∀ fault, step.outcome = .error fault →
    step.after = step.before

end Step

/-- **The steps of a run,** each from where the last one left the sink,
whatever came of it. -/
def trace (s : Sink order) : List (Command order) → List (Step order)
  | [] => []
  | command :: rest =>
    let step : Step order := ⟨command, s⟩
    step :: step.after.trace rest

theorem map_command_trace (s : Sink order) (commands : List (Command order)) :
    (s.trace commands).map Step.command = commands := by
  induction commands generalizing s with
  | nil => rfl
  | cons command commands ih => rw [trace, List.map_cons, ih]

/-! ## Overwriting -/

/-- The sink with these bytes in the place of as many, and behind them. -/
def overwrite (s : Sink order) (bytes : Bytes) : Sink order where
  buffer := s.buffer.take s.pos ++ bytes ++ s.buffer.drop (s.pos + bytes.length)
  pos := s.pos + bytes.length

/-- What fits is written by overwriting. -/
theorem write_eq (s : Sink order) (bytes : Bytes) :
    s.write bytes =
      if bytes.length ≤ s.remaining then (.ok (), s.overwrite bytes)
      else (.error .shortBuffer, s) := rfl

@[simp] theorem overwrite_nil (s : Sink order) : s.overwrite [] = s := by
  simp [overwrite]

theorem buffer_overwrite_ofBuffer (buffer part : Bytes) :
    ((ofBuffer buffer : Sink order).overwrite part).buffer = part ++ buffer.drop part.length := by
  rw [ofBuffer, overwrite, List.take_zero, List.nil_append, Nat.zero_add]

section Overwriting

variable {s : Sink order} {bytes more : Bytes}

theorem length_buffer_overwrite (h : s.pos + bytes.length ≤ s.buffer.length) :
    (s.overwrite bytes).buffer.length = s.buffer.length := by
  simp only [overwrite, List.length_append, List.length_take, List.length_drop]
  omega

/-- **Overwriting on from where overwriting ended** is overwriting with
both. -/
theorem overwrite_overwrite (h : s.pos + bytes.length ≤ s.buffer.length) :
    (s.overwrite bytes).overwrite more = s.overwrite (bytes ++ more) := by
  have hfront : (s.buffer.take s.pos ++ bytes).length = s.pos + bytes.length := by
    rw [List.length_append, List.length_take]
    omega
  have hbefore : (s.overwrite bytes).buffer.take (s.pos + bytes.length) =
      s.buffer.take s.pos ++ bytes := List.take_left' hfront
  have hbehind : (s.overwrite bytes).buffer.drop (s.pos + bytes.length + more.length) =
      s.buffer.drop (s.pos + (bytes ++ more).length) := by
    rw [overwrite, ← hfront, List.drop_length_add_append, hfront, List.drop_drop,
      List.length_append, Nat.add_assoc]
  calc (s.overwrite bytes).overwrite more
      = ⟨(s.overwrite bytes).buffer.take (s.pos + bytes.length) ++ more ++
          (s.overwrite bytes).buffer.drop (s.pos + bytes.length + more.length),
        s.pos + bytes.length + more.length⟩ := rfl
    _ = s.overwrite (bytes ++ more) := by
      rw [hbefore, hbehind, List.append_assoc _ bytes, Nat.add_assoc, ← List.length_append,
        overwrite]

/-- The bytes stand where they were put. -/
theorem drop_take_overwrite (h : s.pos ≤ s.buffer.length) :
    ((s.overwrite bytes).buffer.take (s.pos + bytes.length)).drop s.pos = bytes := by
  have hfront : (s.buffer.take s.pos).length = s.pos := List.length_take_of_le h
  have hpart : (s.buffer.take s.pos ++ bytes).length = s.pos + bytes.length := by
    rw [List.length_append, hfront]
  rw [overwrite, List.take_left' hpart, List.drop_left' hfront]

/-- **A run of writes ends behind the last, or in front of the first that
does not fit.** -/
theorem writeAll_cases (h : s.pos ≤ s.buffer.length) (fields : List Bytes) :
    (s.pos + fields.flatten.length ≤ s.buffer.length ∧
      s.writeAll fields = (.ok (), s.overwrite fields.flatten)) ∨
    ∃ done next later, fields = done ++ next :: later ∧
      s.pos + done.flatten.length ≤ s.buffer.length ∧
      s.buffer.length < s.pos + done.flatten.length + next.length ∧
      s.writeAll fields = (.error .shortBuffer, s.overwrite done.flatten) := by
  induction fields generalizing s with
  | nil =>
    refine .inl ⟨h, ?_⟩
    rw [List.flatten_nil, overwrite_nil]
    rfl
  | cons next fields ih =>
    have hremaining : s.remaining = s.buffer.length - s.pos := rfl
    rcases Nat.lt_or_ge s.remaining next.length with hlt | hfits
    · refine .inr ⟨[], next, fields, rfl, h, ?_, ?_⟩
      · rw [List.flatten_nil, List.length_nil]
        omega
      · rw [writeAll, write_eq, if_neg (by omega), List.flatten_nil, overwrite_nil]
    · have hroom : s.pos + next.length ≤ s.buffer.length := by omega
      have hlength := length_buffer_overwrite hroom
      have hpos : (s.overwrite next).pos = s.pos + next.length := rfl
      rw [writeAll, write_eq, if_pos hfits]
      dsimp only
      rcases ih (s := s.overwrite next) (by omega) with
        ⟨hall, hwrite⟩ | ⟨done, lacking, later, rfl, hdone, hlacks, hwrite⟩
      · left
        rw [hwrite, overwrite_overwrite hroom, List.flatten_cons, List.length_append]
        exact ⟨by omega, rfl⟩
      · right
        refine ⟨next :: done, lacking, later, rfl, ?_, ?_, ?_⟩
        · rw [List.flatten_cons, List.length_append]
          omega
        · rw [List.flatten_cons, List.length_append]
          omega
        · rw [hwrite, overwrite_overwrite hroom, List.flatten_cons]

end Overwriting

/-! ## One step -/

namespace Command

/-- One thing to write contributes all of itself, or nothing. -/
theorem contributes_write {s : Sink order} (command : Command order) {bytes : Bytes}
    (hprimitive : command.Primitive) (hencoding : command.encoding = .ok bytes)
    (h : s.pos ≤ s.buffer.length) :
    ∃ part, command.Contributes s (s.write bytes).1 part ∧
      s.pos + part.length ≤ s.buffer.length ∧ (s.write bytes).2 = s.overwrite part := by
  have hremaining : s.remaining = s.buffer.length - s.pos := rfl
  rw [write_eq]
  split
  · next hroom => exact ⟨bytes, .whole hencoding hroom, by omega, rfl⟩
  · next hlacks =>
    refine ⟨[], .nothing hprimitive hencoding (by omega), h, ?_⟩
    rw [overwrite_nil]

/-- A record contributes the fields in front of the first that does not
fit, which are not all of it. -/
theorem contributes_message {f : Family} {k : f.Kind} (record : f.Record k) {s : Sink f.order}
    (h : s.pos ≤ s.buffer.length) :
    ∃ part, (message record).Contributes s (Message.write record s).1 part ∧
      s.pos + part.length ≤ s.buffer.length ∧ (Message.write record s).2 = s.overwrite part := by
  have hremaining : s.remaining = s.buffer.length - s.pos := rfl
  rw [Message.write]
  cases hfields : Message.fields? record with
  | none =>
    have hlayout : Message.layout? record = none := by
      rw [Message.layout?, hfields]
      rfl
    have hbroken := (Message.layout?_eq_none_iff record).1 hlayout
    have hencoding : Message.toBytes record = .error .badValue := by
      rw [Message.toBytes, (Message.encode_eq_error_iff record _ _).2 (.inl ⟨rfl, hbroken⟩)]
      rfl
    refine ⟨[], .refused hencoding, h, ?_⟩
    rw [overwrite_nil]
  | some fields =>
    have hlayout : Message.layout? record = some fields.flatten := by
      rw [Message.layout?, hfields]
      rfl
    have hencoding := (Message.toBytes_eq_ok_iff record _).2 hlayout
    dsimp only
    rcases writeAll_cases h fields with
      ⟨hroom, hwrite⟩ | ⟨done, next, later, rfl, hroom, hlacks, hwrite⟩
    · rw [hwrite]
      exact ⟨_, .whole hencoding (by omega), hroom, rfl⟩
    · have hflatten : (done ++ next :: later).flatten =
          done.flatten ++ (next ++ later.flatten) := by simp
      -- a field that does not fit is not empty
      have hproper : next ++ later.flatten ≠ [] := by
        intro hnil
        rw [(List.append_eq_nil_iff.1 hnil).1, List.length_nil] at hlacks
        omega
      rw [hwrite]
      refine ⟨_, .cut id (hflatten ▸ hencoding) hproper ?_, hroom, rfl⟩
      simp only [List.length_append]
      omega

/-- **A command overwrites what it contributes,** and nothing else. -/
theorem contributes_perform {s : Sink order} (command : Command order)
    (h : s.pos ≤ s.buffer.length) :
    ∃ part, command.Contributes s (command.perform s).1 part ∧
      s.pos + part.length ≤ s.buffer.length ∧ (command.perform s).2 = s.overwrite part := by
  cases command with
  | write bytes => exact contributes_write (.write bytes) trivial rfl h
  | put value => exact contributes_write (.put value) trivial rfl h
  | message record => exact contributes_message record h

end Command

namespace Step

/-- What a step contributes is what it has overwritten. -/
theorem eq_overwrite (step : Step order) (h : step.before.pos ≤ step.before.buffer.length) :
    step.command.Contributes step.before step.outcome step.contributed ∧
      step.before.pos + step.contributed.length ≤ step.before.buffer.length ∧
      step.after = step.before.overwrite step.contributed := by
  obtain ⟨part, hcontributes, hroom, hafter⟩ := step.command.contributes_perform h
  replace hafter : step.after = step.before.overwrite part := hafter
  have hpart : step.contributed = part := by
    rw [contributed, hafter]
    exact drop_take_overwrite h
  rw [hpart]
  exact ⟨hcontributes, hroom, hafter⟩

/-- **Every step conserves,** from a position within the buffer, and ends at
one. -/
theorem conserves (step : Step order) (h : step.before.pos ≤ step.before.buffer.length) :
    step.Conserves step.before.buffer.length := by
  obtain ⟨hcontributes, hroom, hafter⟩ := step.eq_overwrite h
  have hlength : step.after.buffer.length = step.before.buffer.length := by
    rw [hafter]
    exact length_buffer_overwrite hroom
  have hpos : step.after.pos = step.before.pos + step.contributed.length := by
    rw [hafter]
    rfl
  have hremaining : step.after.remaining = step.after.buffer.length - step.after.pos := rfl
  refine {
    length_buffer := hlength
    pos_le := by omega
    pos_add_remaining := by omega
    forward := by omega
    contributes := hcontributes
    unchanged := fun hprimitive fault hfault => ?_ }
  rw [hfault] at hcontributes
  have hnothing : step.contributed = [] := by
    generalize step.contributed = part at hcontributes
    cases hcontributes with
    | nothing _ _ _ => rfl
    | refused _ => rfl
    | cut record _ _ _ => exact absurd hprimitive record
  rw [hafter, hnothing, overwrite_nil]

end Step

/-! ## Runs -/

section Runs

variable {s : Sink order}

theorem conserves_of_mem_trace (h : s.pos ≤ s.buffer.length) (commands : List (Command order)) :
    ∀ step ∈ s.trace commands, step.Conserves s.buffer.length := by
  induction commands generalizing s with
  | nil => exact List.forall_mem_nil _
  | cons command commands ih =>
    have hfirst := Step.conserves ⟨command, s⟩ h
    have hlength := hfirst.length_buffer
    refine List.forall_mem_cons.2 ⟨hfirst, fun step hstep => ?_⟩
    have hrest := ih (hlength ▸ hfirst.pos_le) step hstep
    rwa [hlength] at hrest

/-- **After any step of a run** the sink is overwritten with what the steps
up to it contributed. -/
theorem after_trace (h : s.pos ≤ s.buffer.length) (commands : List (Command order)) :
    ∀ n step, (s.trace commands)[n]? = some step →
      step.after = s.overwrite (((s.trace commands).take (n + 1)).flatMap Step.contributed) := by
  induction commands generalizing s with
  | nil =>
    intro n step hstep
    cases hstep
  | cons command commands ih =>
    intro n step hstep
    let first : Step order := ⟨command, s⟩
    obtain ⟨-, hroom, hafter⟩ := first.eq_overwrite h
    have hfirst := first.conserves h
    have htrace : s.trace (command :: commands) = first :: first.after.trace commands := rfl
    rw [htrace] at hstep ⊢
    rw [List.take_succ_cons, List.flatMap_cons]
    cases n with
    | zero =>
      have heq : first = step := Option.some.inj hstep
      rw [← heq, List.take_zero, List.flatMap_nil, List.append_nil]
      exact hafter
    | succ n =>
      have hrest := ih (hfirst.length_buffer ▸ hfirst.pos_le) n step hstep
      generalize ((first.after.trace commands).take (n + 1)).flatMap Step.contributed = rest
        at hrest ⊢
      rw [hrest, hafter, overwrite_overwrite hroom]

end Runs

/-- **A run of writes conserves bytes,** whatever succeeds and whatever
fails. After every step the position is within the buffer and no step has
gone back. A step contributes its encoding where that fits; of a record
that does not fit, a part of it and not all; and nothing otherwise. The
buffer is what the steps have contributed, one behind the other, and from
the position on what stood there at the beginning. -/
theorem run_conserves (order : ByteOrder) (buffer : Bytes) (commands : List (Command order)) :
    let steps := (ofBuffer buffer : Sink order).trace commands
    steps.map Step.command = commands ∧
    (∀ step ∈ steps, step.Conserves buffer.length) ∧
    ∀ n step, steps[n]? = some step →
      step.after.buffer =
        (steps.take (n + 1)).flatMap Step.contributed ++ buffer.drop step.after.pos := by
  intro steps
  have hstart : (ofBuffer buffer : Sink order).pos ≤ buffer.length := Nat.zero_le _
  refine ⟨map_command_trace _ commands, conserves_of_mem_trace hstart commands, ?_⟩
  intro n step hstep
  have hafter := after_trace hstart commands n step hstep
  have hpos : step.after.pos = ((steps.take (n + 1)).flatMap Step.contributed).length := by
    rw [hafter]
    exact Nat.zero_add _
  rw [hpos, hafter]
  exact buffer_overwrite_ofBuffer _ _

/-- Two bytes, a heartbeat with room for all but its last field, a word
without room, and two bytes more. -/
def cutShort : List (Command .little) :=
  [.put (0x0102 : UInt16),
    .message (f := .orderEntry) (k := .clientHeartbeat) ({} : OrderEntry.ClientHeartbeat),
    .put (5 : UInt32), .write [8, 9]]

theorem run_conserves_cutShort :
    ∃ first half lacking last : Step .little,
      (ofBuffer (List.replicate 11 7)).trace cutShort = [first, half, lacking, last] ∧
      half.outcome = .error .shortBuffer ∧ half.contributed = [0xBA, 0xBA, 8, 0, 3, 0] ∧
      lacking.after = lacking.before ∧
      last.outcome = .ok () ∧
      last.after.buffer = [2, 1] ++ [0xBA, 0xBA, 8, 0, 3, 0] ++ [8, 9] ++ [7] := by
  obtain ⟨-, hsteps, hbuffer⟩ := run_conserves .little (List.replicate 11 7) cutShort
  have hlast := hbuffer 3 _ rfl
  have hlacking := (hsteps _ (List.mem_of_getElem? (i := 2) rfl)).unchanged trivial .shortBuffer rfl
  exact ⟨_, _, _, _, rfl, rfl, rfl, hlacking, rfl, hlast⟩

end Sink

end TradeWire
