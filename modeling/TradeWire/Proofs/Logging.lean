import TradeWire.Proofs.Announcement
import TradeWire.Proofs.Coverage
import TradeWire.Proofs.Listening
/-!
# Logging — the log is a faithful account of a walk

A delivery passes through three stages, and a fault can come from two of
them: the look at the type, which tells the log nothing, and the decoder,
which tells it all. Between them stands the choice of the decoder, with a
fault of its own. `Told` says of a step at which stage it ended and what
the log shows of it; since no two of the lines are alike, the log can be
read backwards (`Logged`).

What is said here of the log is said of its lines as they are shown: level,
text, and values by their names.
-/

namespace TradeWire

-- Sums start from the zero of `Nat` itself, whatever algebra is in scope.
attribute [local instance (high)] Zero.ofOfNat0

/-! ## What a log shows -/

namespace Log

/-- **What is shown of an entry.** -/
structure Line where
  level : String
  text : String
  values : List (String × Value)
  deriving DecidableEq, Repr

/-- The line of an entry. -/
def Entry.line (entry : Entry) : Line := ⟨entry.level.label, entry.text, entry.values⟩

namespace Line

/-- The line of a message that was delivered. -/
def dispatched (message : String) (consumed : Nat) : Line :=
  ⟨"TRACE", "dispatched", [("message", .text message), ("consumed", .number consumed)]⟩

/-- The line of a message that was not decoded. -/
def decodeFailed (message status : String) (len : Nat) : Line :=
  ⟨"DEBUG", "decode failed",
    [("message", .text message), ("status", .text status), ("len", .number len)]⟩

/-- The line of a message of no known kind. -/
def unknownType : Family → UInt8 → Nat → Line
  | .orderEntry, type, len => ⟨"DEBUG", "unknown order-entry message type",
      [("message_type", .number type.toNat), ("len", .number len)]⟩
  | .feed, type, len => ⟨"DEBUG", "unknown feed message type",
      [("tag", .number type.toNat), ("len", .number len)]⟩

/-- The number of bytes consumed that a line of level `TRACE` shows. -/
def consumed? (line : Line) : Option Nat :=
  if line.level = "TRACE" then
    match line.values.lookup "consumed" with
    | some (.number n) => some n
    | _ => none
  else none

/-! No two kinds of line are alike, and what a line shows is what it was
made of. -/

@[simp] theorem dispatched_inj {message message' : String} {n n' : Nat} :
    dispatched message n = dispatched message' n' ↔ message = message' ∧ n = n' := by
  simp [dispatched]

@[simp] theorem decodeFailed_inj {message message' status status' : String} {n n' : Nat} :
    decodeFailed message status n = decodeFailed message' status' n' ↔
      message = message' ∧ status = status' ∧ n = n' := by
  simp [decodeFailed]

@[simp] theorem unknownType_inj {f : Family} {type type' : UInt8} {n n' : Nat} :
    unknownType f type n = unknownType f type' n' ↔ type = type' ∧ n = n' := by
  cases f <;> simp [unknownType, UInt8.toNat_inj]

@[simp] theorem dispatched_ne_decodeFailed {message message' status : String} {n n' : Nat} :
    dispatched message n ≠ decodeFailed message' status n' := by
  simp [dispatched, decodeFailed]

@[simp] theorem dispatched_ne_unknownType {message : String} {f : Family} {type : UInt8}
    {n n' : Nat} : dispatched message n ≠ unknownType f type n' := by
  cases f <;> simp [dispatched, unknownType]

@[simp] theorem decodeFailed_ne_unknownType {message status : String} {f : Family} {type : UInt8}
    {n n' : Nat} : decodeFailed message status n ≠ unknownType f type n' := by
  cases f <;> simp [decodeFailed, unknownType]

end Line

end Log

namespace Family

open Log

variable {f : Family} {bytes : Bytes} {offset : Nat} {listener : f.Listener} {step : f.Step}

/-- The lines of a step. -/
def Step.lines (step : f.Step) : List Line := step.delivery.log.map Entry.line

/-- The lines of a walk. -/
def Trace.lines (t : f.Trace) : List Line := t.steps.flatMap Step.lines

/-! ## One step -/

/-- **At which stage a step ended, and what the log shows of it.** -/
inductive Step.Told (bytes : Bytes) (step : f.Step) : Prop where
  /-- The type could not be seen. -/
  | unseen {fault : Fault} (hpeek : f.peekType.decode (bytes.drop step.offset) = .error fault)
      (houtcome : step.delivery.outcome = .error fault) (hlines : step.lines = [])
  /-- A message was decoded. -/
  | dispatched {k : f.Kind} {record : f.Record k} {m n : Nat}
      (hpeek : f.peekType.decode (bytes.drop step.offset) = .ok (f.typeOf k, m))
      (hdecode : f.decode k (bytes.drop step.offset) = .ok (record, n))
      (houtcome : step.delivery.outcome = .ok n)
      (hlines : step.lines = [.dispatched (f.nameOf k) n])
  /-- A message of a known kind was not. -/
  | failed {k : f.Kind} {fault : Fault} {m : Nat}
      (hpeek : f.peekType.decode (bytes.drop step.offset) = .ok (f.typeOf k, m))
      (hdecode : f.decode k (bytes.drop step.offset) = .error fault)
      (houtcome : step.delivery.outcome = .error fault)
      (hlines : step.lines =
        [.decodeFailed (f.nameOf k) fault.label (bytes.length - step.offset)])
  /-- The kind is not known. -/
  | unknown {type : UInt8} {m : Nat}
      (hpeek : f.peekType.decode (bytes.drop step.offset) = .ok (type, m))
      (hkind : f.kindOf? type = none)
      (houtcome : step.delivery.outcome = .error .unknownType)
      (hlines : step.lines = [.unknownType f type (bytes.length - step.offset)])

/-- Every delivery ends at one of the stages. -/
theorem told_of_delivery (h : step.delivery = f.dispatch listener (bytes.drop step.offset)) :
    step.Told bytes := by
  have hlog : step.lines = (f.dispatch listener (bytes.drop step.offset)).log.map Entry.line := by
    rw [Step.lines, h]
  have houtcome : step.delivery.outcome =
      (f.dispatch listener (bytes.drop step.offset)).outcome := by rw [h]
  rcases dispatch_cases listener (bytes.drop step.offset) with
    ⟨fault, hpeek, heq⟩ | ⟨k, m, hpeek, heq⟩ | ⟨type, m, hpeek, hkind, heq⟩
  · rw [heq] at hlog houtcome
    exact .unseen hpeek houtcome hlog
  · rw [heq, deliver] at hlog houtcome
    cases hdecode : f.decode k (bytes.drop step.offset) with
    | ok found =>
      obtain ⟨record, n⟩ := found
      rw [hdecode] at hlog houtcome
      exact .dispatched hpeek hdecode houtcome hlog
    | error fault =>
      rw [hdecode, List.length_drop] at hlog
      rw [hdecode] at houtcome
      exact .failed hpeek hdecode houtcome hlog
  · rw [heq, List.length_drop] at hlog
    rw [heq] at houtcome
    refine .unknown hpeek hkind houtcome (hlog.trans ?_)
    cases f <;> rfl

/-! ## The log read backwards -/

/-- **What the log of a step says is so, and what is so the log says.** The
bytes given to the step are those from its offset on. -/
structure Step.Logged (bytes : Bytes) (step : f.Step) : Prop where
  /-- Nothing is told exactly where no type can be seen, -/
  silent : step.lines = [] ↔ ∃ fault, f.peekType.decode (bytes.drop step.offset) = .error fault
  /-- and otherwise one thing is. -/
  single : step.lines ≠ [] → ∃ line, step.lines = [line]
  /-- A delivery is told exactly where the step succeeds, -/
  dispatched_iff : (∃ message n, step.lines = [.dispatched message n]) ↔
    ∃ n, step.delivery.outcome = .ok n
  /-- by the name of the kind decoded and the bytes consumed. -/
  dispatched : ∀ message n, step.lines = [.dispatched message n] →
    step.delivery.outcome = .ok n ∧ ∃ (k : f.Kind) (record : f.Record k),
      f.decode k (bytes.drop step.offset) = .ok (record, n) ∧ message = f.nameOf k
  /-- A failure is told exactly where the type is known and decoding fails, -/
  failed_iff : (∃ message status len, step.lines = [.decodeFailed message status len]) ↔
    ∃ k m fault, f.peekType.decode (bytes.drop step.offset) = .ok (f.typeOf k, m) ∧
      f.decode k (bytes.drop step.offset) = .error fault
  /-- by the name of the kind seen, the label of the fault returned, and the
  bytes given. -/
  failed : ∀ message status len, step.lines = [.decodeFailed message status len] →
    len = bytes.length - step.offset ∧ ∃ k m fault,
      f.peekType.decode (bytes.drop step.offset) = .ok (f.typeOf k, m) ∧ message = f.nameOf k ∧
      step.delivery.outcome = .error fault ∧ status = fault.label
  /-- An unknown type is told exactly where that is the outcome, -/
  unknown_iff : (∃ type len, step.lines = [.unknownType f type len]) ↔
    step.delivery.outcome = .error .unknownType
  /-- by the byte seen and the bytes given. -/
  unknown : ∀ type len, step.lines = [.unknownType f type len] →
    len = bytes.length - step.offset ∧ ∃ m,
      f.peekType.decode (bytes.drop step.offset) = .ok (type, m)

namespace Step.Told

/-! ### From what happened to what is told -/

theorem silent_iff (h : step.Told bytes) :
    step.lines = [] ↔ ∃ fault, f.peekType.decode (bytes.drop step.offset) = .error fault := by
  cases h with
  | unseen hpeek _ hlines => exact iff_of_true hlines ⟨_, hpeek⟩
  | dispatched hpeek _ _ hlines | failed hpeek _ _ hlines | unknown hpeek _ _ hlines =>
    exact iff_of_false (by simp [hlines]) (by simp [hpeek])

theorem exists_line (h : step.Told bytes) (hne : step.lines ≠ []) :
    ∃ line, step.lines = [line] := by
  cases h with
  | unseen _ _ hlines => exact absurd hlines hne
  | dispatched _ _ _ hlines | failed _ _ _ hlines | unknown _ _ _ hlines => exact ⟨_, hlines⟩

theorem lines_of_ok (h : step.Told bytes) {n : Nat} (hok : step.delivery.outcome = .ok n) :
    ∃ k : f.Kind, step.lines = [.dispatched (f.nameOf k) n] := by
  cases h with
  | @dispatched k _ _ m _ _ houtcome hlines =>
    obtain rfl : m = n := Except.ok.inj (houtcome.symm.trans hok)
    exact ⟨k, hlines⟩
  | unseen _ houtcome _ | failed _ _ houtcome _ | unknown _ _ houtcome _ =>
    cases houtcome.symm.trans hok

theorem lines_of_known (h : step.Told bytes) {k : f.Kind} {m : Nat} {fault : Fault}
    (hknown : f.peekType.decode (bytes.drop step.offset) = .ok (f.typeOf k, m))
    (hfails : f.decode k (bytes.drop step.offset) = .error fault) :
    step.lines = [.decodeFailed (f.nameOf k) fault.label (bytes.length - step.offset)] := by
  -- kinds have types of their own, so the kind that was chosen is this one
  have hkind : ∀ {k' m'}, f.peekType.decode (bytes.drop step.offset) = .ok (f.typeOf k', m') →
      k' = k := by
    intro k' m' hpeek
    have hsame := Except.ok.inj (hpeek.symm.trans hknown)
    exact eq_of_typeOf (congrArg Prod.fst hsame)
  cases h with
  | unseen hpeek _ _ => cases hpeek.symm.trans hknown
  | dispatched hpeek hdecode _ _ =>
    obtain rfl := hkind hpeek
    cases hdecode.symm.trans hfails
  | failed hpeek hdecode _ hlines =>
    obtain rfl := hkind hpeek
    cases hdecode.symm.trans hfails
    exact hlines
  | unknown hpeek hnone _ _ =>
    have hsame := Except.ok.inj (hpeek.symm.trans hknown)
    exact absurd (congrArg Prod.fst hsame).symm (kindOf?_eq_none_iff.1 hnone k)

/-- No decoder finds a type unknown, so only the choice between them
does. -/
theorem lines_of_unknownType (h : step.Told bytes)
    (hunknown : step.delivery.outcome = .error .unknownType) :
    ∃ type, step.lines = [.unknownType f type (bytes.length - step.offset)] := by
  cases h with
  | unseen hpeek houtcome _ =>
    cases houtcome.symm.trans hunknown
    exact absurd hpeek (Decoder.decode_ne_unknownType _ _)
  | dispatched _ _ houtcome _ => cases houtcome.symm.trans hunknown
  | failed _ hdecode houtcome _ =>
    cases houtcome.symm.trans hunknown
    exact absurd hdecode (Decoder.decode_ne_unknownType _ _)
  | unknown _ _ _ hlines => exact ⟨_, hlines⟩

/-! ### From what is told to what happened -/

theorem of_dispatched (h : step.Told bytes) {message : String} {n : Nat}
    (hline : step.lines = [.dispatched message n]) :
    step.delivery.outcome = .ok n ∧ ∃ (k : f.Kind) (record : f.Record k),
      f.decode k (bytes.drop step.offset) = .ok (record, n) ∧ message = f.nameOf k := by
  cases h with
  | unseen _ _ hlines => cases hlines.symm.trans hline
  | dispatched _ hdecode houtcome hlines =>
    obtain ⟨rfl, rfl⟩ := Line.dispatched_inj.1 (List.singleton_inj.1 (hlines.symm.trans hline))
    exact ⟨houtcome, _, _, hdecode, rfl⟩
  | failed _ _ _ hlines | unknown _ _ _ hlines =>
    exact absurd (hline.symm.trans hlines) (by simp)

theorem of_decodeFailed (h : step.Told bytes) {message status : String} {len : Nat}
    (hline : step.lines = [.decodeFailed message status len]) :
    len = bytes.length - step.offset ∧ ∃ k m fault,
      f.peekType.decode (bytes.drop step.offset) = .ok (f.typeOf k, m) ∧ message = f.nameOf k ∧
      f.decode k (bytes.drop step.offset) = .error fault ∧
      step.delivery.outcome = .error fault ∧ status = fault.label := by
  cases h with
  | unseen _ _ hlines => cases hlines.symm.trans hline
  | dispatched _ _ _ hlines => exact absurd (hlines.symm.trans hline) (by simp)
  | failed hpeek hdecode houtcome hlines =>
    obtain ⟨rfl, rfl, rfl⟩ :=
      Line.decodeFailed_inj.1 (List.singleton_inj.1 (hlines.symm.trans hline))
    exact ⟨rfl, _, _, _, hpeek, rfl, hdecode, houtcome, rfl⟩
  | unknown _ _ _ hlines => exact absurd (hline.symm.trans hlines) (by simp)

theorem of_unknownType (h : step.Told bytes) {type : UInt8} {len : Nat}
    (hline : step.lines = [.unknownType f type len]) :
    len = bytes.length - step.offset ∧ step.delivery.outcome = .error .unknownType ∧
      ∃ m, f.peekType.decode (bytes.drop step.offset) = .ok (type, m) := by
  cases h with
  | unseen _ _ hlines => cases hlines.symm.trans hline
  | dispatched _ _ _ hlines | failed _ _ _ hlines =>
    exact absurd (hlines.symm.trans hline) (by simp)
  | unknown hpeek _ houtcome hlines =>
    obtain ⟨rfl, rfl⟩ := Line.unknownType_inj.1 (List.singleton_inj.1 (hlines.symm.trans hline))
    exact ⟨rfl, houtcome, _, hpeek⟩

/-- **Every step is logged.** -/
theorem logged (h : step.Told bytes) : step.Logged bytes where
  silent := h.silent_iff
  single := h.exists_line
  dispatched_iff := by
    constructor
    · rintro ⟨message, n, hline⟩
      exact ⟨n, (h.of_dispatched hline).1⟩
    · rintro ⟨n, hok⟩
      obtain ⟨k, hlines⟩ := h.lines_of_ok hok
      exact ⟨_, n, hlines⟩
  dispatched message n hline := h.of_dispatched hline
  failed_iff := by
    constructor
    · rintro ⟨message, status, len, hline⟩
      obtain ⟨-, k, m, fault, hpeek, -, hdecode, -⟩ := h.of_decodeFailed hline
      exact ⟨k, m, fault, hpeek, hdecode⟩
    · rintro ⟨k, m, fault, hpeek, hdecode⟩
      exact ⟨_, _, _, h.lines_of_known hpeek hdecode⟩
  failed message status len hline := by
    obtain ⟨hlen, k, m, fault, hpeek, hname, -, houtcome, hlabel⟩ := h.of_decodeFailed hline
    exact ⟨hlen, k, m, fault, hpeek, hname, houtcome, hlabel⟩
  unknown_iff := by
    constructor
    · rintro ⟨type, len, hline⟩
      exact (h.of_unknownType hline).2.1
    · intro hunknown
      obtain ⟨type, hlines⟩ := h.lines_of_unknownType hunknown
      exact ⟨type, _, hlines⟩
  unknown type len hline := by
    obtain ⟨hlen, -, hpeek⟩ := h.of_unknownType hline
    exact ⟨hlen, hpeek⟩

/-- The bytes that a step shows in the log as consumed. -/
theorem consumed_eq (h : step.Told bytes) :
    (step.lines.filterMap Line.consumed?).sum =
      match step.delivery.outcome with
      | .ok n => n
      | .error _ => 0 := by
  cases h with
  | unseen _ houtcome hlines =>
    rw [hlines, houtcome]
    rfl
  | dispatched _ _ houtcome hlines =>
    rw [hlines, houtcome]
    rfl
  | failed _ _ houtcome hlines =>
    rw [hlines, houtcome]
    rfl
  | unknown _ _ houtcome hlines =>
    rw [hlines, houtcome]
    cases f <;> rfl

end Step.Told

/-! ## The log of a walk -/

/-- The bytes that the delivery at an offset shows as consumed. -/
theorem consumed_dispatch (listener : f.Listener) (bytes : Bytes) (offset : Nat) :
    ((Step.lines ⟨offset, f.dispatch listener (bytes.drop offset)⟩).filterMap
        Line.consumed?).sum =
      match (f.dispatch listener (bytes.drop offset)).outcome with
      | .ok n => n
      | .error _ => 0 := by
  have htold : Step.Told bytes ⟨offset, f.dispatch listener (bytes.drop offset)⟩ :=
    told_of_delivery rfl
  exact htold.consumed_eq

/-- **What a walk that stops shows as consumed is how far it went.** -/
theorem walkFrom_consumed (listener : f.Listener) (bytes : Bytes) (offset : Nat) :
    offset + ((f.walkFrom .stop listener bytes offset).lines.filterMap Line.consumed?).sum =
      (f.walkFrom .stop listener bytes offset).final := by
  induction offset using walkFrom.induct f .stop listener bytes with
  | case1 offset hlt delivery n hn ih =>
    have hok := (stride?_stop_eq_some_iff _ _ n).1 hn
    have hstep := consumed_dispatch listener bytes offset
    rw [hok] at hstep
    rw [walkFrom_of_some f hlt hn]
    simp only [Trace.lines, List.flatMap_cons, List.filterMap_append, List.sum_append] at ih ⊢
    rw [hstep, ← Nat.add_assoc]
    exact ih
  | case2 offset hlt delivery hnone =>
    obtain ⟨fault, hfault⟩ := exists_error_of_stride?_stop hnone
    have hstep := consumed_dispatch listener bytes offset
    rw [hfault] at hstep
    rw [walkFrom_of_none f hlt hnone, Trace.lines, List.flatMap_singleton, hstep]
    rfl
  | case3 offset hle =>
    rw [walkFrom_of_le f (Nat.le_of_not_lt hle)]
    rfl

/-- **The log is a faithful account of a walk.** Of every step it says
nothing exactly where the type cannot be seen, and one thing otherwise:
that a message was dispatched, with its name and the bytes consumed,
exactly where one was; that decoding failed, with the name of the type
seen, the label of the fault returned and the bytes that were left, exactly
where a message of a known type is not decoded; that the type is unknown,
with its byte and the bytes that were left, exactly where that is the
outcome. So the bytes that the log of a walk that stops shows as consumed
add up to where the walk ended. -/
theorem walk_logged (f : Family) (w : Walk) (listener : f.Listener) (bytes : Bytes) :
    (∀ step ∈ (f.walk w listener bytes).steps, step.Logged bytes) ∧
      ((f.walk .stop listener bytes).lines.filterMap Line.consumed?).sum =
        (f.walk .stop listener bytes).final := by
  refine ⟨fun step hstep => (told_of_delivery (delivery_of_mem_walk hstep)).logged, ?_⟩
  have hconsumed := walkFrom_consumed listener bytes 0
  rw [Nat.zero_add] at hconsumed
  exact hconsumed

/-- An event, a byte that is no tag, and an order taken off the book of
which most is missing. -/
def removalCutShort : Bytes := [83, 0, 0, 0, 1, 79, 0x5A, 68, 0, 0]

theorem walk_logged_removalCutShort :
    ((feed.walk .skipUnknown feed.everything removalCutShort).lines =
        [.dispatched "SystemEvent" 6, .unknownType feed 0x5A 4,
          .decodeFailed "DeleteOrder" "short_buffer" 3] ∧
      ⟨0, feed.dispatch feed.everything removalCutShort⟩ ∈
        (feed.walk .skipUnknown feed.everything removalCutShort).steps ∧
      Step.Logged removalCutShort ⟨0, feed.dispatch feed.everything removalCutShort⟩) ∧
      ((feed.walk .stop feed.everything removalCutShort).lines.filterMap Line.consumed?).sum =
        6 := by
  have hlines : (feed.walk .skipUnknown feed.everything removalCutShort).lines =
      [.dispatched "SystemEvent" 6, .unknownType feed 0x5A 4,
        .decodeFailed "DeleteOrder" "short_buffer" 3] := by cbv
  have hfinal : (feed.walk .stop feed.everything removalCutShort).final = 6 := by cbv
  obtain ⟨hlogged, hconsumed⟩ := walk_logged feed .skipUnknown feed.everything removalCutShort
  have hthere : 0 < removalCutShort.length := by decide
  have hfirst : ⟨0, feed.dispatch feed.everything removalCutShort⟩ ∈
      (feed.walk .skipUnknown feed.everything removalCutShort).steps := mem_steps_walkFrom hthere
  exact ⟨⟨hlines, hfirst, hlogged _ hfirst⟩, hconsumed.trans hfinal⟩

end Family

end TradeWire
