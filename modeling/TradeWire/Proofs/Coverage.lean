import Mathlib.Data.List.Chain
import TradeWire.Proofs.Capacity
import TradeWire.Proofs.Resumption
/-!
# Coverage — every byte a walk consumes is in what it hands over

Nothing is assumed of the bytes here: they can be garbage, or a message
cut short, or a frame that announces no length or more than there is.
Still a step that succeeds stands on bytes that are there and hands over
the one record they encode, and a step that fails hands over nothing
(`accounts_dispatch`). Steps follow one another without a gap that is not
an unknown frame. So what a walk hands over before it stops, encoded
again, is the bytes it has gone through.
-/

namespace TradeWire

namespace Family

open Decoder Message

variable {f : Family} {w : Walk} {bytes : Bytes} {offset : Nat}

/-- The bytes of a record handed over. -/
def Event.toBytes (event : f.Event) : Except Fault Bytes := Message.toBytes event.record

/-- **Where a step ends:** behind the message consumed, behind the unknown
frame by its own account, or where it began. -/
def Step.finish (bytes : Bytes) (step : f.Step) : Nat :=
  match step.delivery.outcome with
  | .ok consumed => step.offset + consumed
  | .error .unknownType => step.offset + f.unknownSize (bytes.drop step.offset)
  | .error .shortBuffer | .error .badValue => step.offset

/-- **A step accounts for what it consumes.** -/
structure Step.Accounts (bytes : Bytes) (step : f.Step) : Prop where
  /-- What is consumed is there, and is the bytes of the one record handed
  over. -/
  consumed : ∀ n, step.delivery.outcome = .ok n →
    step.offset + n ≤ bytes.length ∧
      ∃ event, step.delivery.events = [event] ∧
        event.toBytes = .ok ((bytes.drop step.offset).take n)
  /-- A step that fails hands over nothing. -/
  failed : ∀ fault, step.delivery.outcome = .error fault → step.delivery.events = []

/-! ## One step -/

/-- **Every delivery accounts for what it consumes,** whatever the
bytes. -/
theorem accounts_dispatch (hle : offset ≤ bytes.length) :
    Step.Accounts bytes ⟨offset, f.dispatch f.everything (bytes.drop offset)⟩ where
  consumed n h := by
    obtain ⟨k, record, hdecode⟩ := exists_decode_of_dispatch h
    obtain ⟨hn, -, hlayout⟩ := decode_eq_ok_iff.1 hdecode
    rw [List.length_drop] at hn
    have hevents : (f.dispatch f.everything (bytes.drop offset)).events = [⟨k, record⟩] := by
      rw [dispatch_of_decode hdecode]
      rfl
    refine ⟨?_, ⟨k, record⟩, hevents, (toBytes_eq_ok_iff record _).2 hlayout⟩
    dsimp only
    omega
  failed fault h := events_of_error h

/-- A walk that goes on from a step goes on where the step ends. -/
theorem finish_eq_of_stride? {n : Nat} {step : f.Step}
    (h : f.stride? w (bytes.drop step.offset) step.delivery.outcome = some n) :
    step.finish bytes = step.offset + n := by
  unfold Step.finish
  revert h
  cases step.delivery.outcome with
  | ok consumed =>
    intro h
    have hsome := (Option.ite_none_left_eq_some.1 h).2
    cases hsome
    rfl
  | error fault =>
    cases fault with
    | unknownType =>
      intro h
      have hsome := (Option.ite_none_right_eq_some.1 h).2
      cases hsome
      rfl
    | shortBuffer | badValue =>
      intro h
      cases h

/-! ## The steps of a walk -/

/-- **A walk begins where it is told to, and goes on where each step
ends;** every step accounts for what it consumes. -/
theorem walkFrom_chain (f : Family) (w : Walk) (bytes : Bytes) (offset : Nat) :
    (∀ step ∈ (f.walkFrom w f.everything bytes offset).steps.head?, step.offset = offset) ∧
    (f.walkFrom w f.everything bytes offset).steps.IsChain
      (fun step next => next.offset = step.finish bytes) ∧
    ∀ step ∈ (f.walkFrom w f.everything bytes offset).steps, step.Accounts bytes := by
  induction offset using walkFrom.induct f w f.everything bytes with
  | case1 offset hlt delivery n hn ih =>
    obtain ⟨hhead, hchain, haccounts⟩ := ih
    have hstep : Step.Accounts bytes ⟨offset, delivery⟩ := accounts_dispatch (Nat.le_of_lt hlt)
    have hfinish : Step.finish bytes ⟨offset, delivery⟩ = offset + n := finish_eq_of_stride? hn
    rw [walkFrom_of_some f hlt hn]
    refine ⟨?_, List.isChain_cons.2 ⟨?_, hchain⟩, List.forall_mem_cons.2 ⟨hstep, haccounts⟩⟩
    · rintro step ⟨⟩
      rfl
    · intro next hnext
      rw [hhead next hnext]
      exact hfinish.symm
  | case2 offset hlt delivery hnone =>
    have hstep : Step.Accounts bytes ⟨offset, delivery⟩ := accounts_dispatch (Nat.le_of_lt hlt)
    rw [walkFrom_of_none f hlt hnone]
    refine ⟨?_, List.isChain_singleton _, List.forall_mem_singleton.2 hstep⟩
    rintro step ⟨⟩
    rfl
  | case3 offset hle =>
    rw [walkFrom_of_le f (Nat.le_of_not_lt hle)]
    exact ⟨by simp, List.isChain_nil, List.forall_mem_nil _⟩

/-! ## What a walk that stops has gone through -/

/-- A walk that stops at unknown frames goes on behind messages only. -/
theorem stride?_stop_eq_some_iff (bytes : Bytes) (outcome : Except Fault Nat) (n : Nat) :
    f.stride? .stop bytes outcome = some n ↔ outcome = .ok n := by
  cases outcome with
  | ok consumed => simp [stride?]
  | error fault => cases fault <;> simp [stride?]

/-- And where it does not go on, the step has failed. -/
theorem exists_error_of_stride?_stop {outcome : Except Fault Nat}
    (h : f.stride? .stop bytes outcome = none) : ∃ fault, outcome = .error fault := by
  cases outcome with
  | ok n => cases h.symm.trans ((stride?_stop_eq_some_iff bytes _ n).2 rfl)
  | error fault => exact ⟨fault, rfl⟩

/-- **A walk from an offset has gone through the bytes up to where it
ends:** they are what it handed over, encoded again. -/
structure Trace.Covers (bytes : Bytes) (offset : Nat) (t : f.Trace) : Prop where
  offset_le : offset ≤ t.final
  final_le : t.final ≤ bytes.length
  encoded : ∃ chunks,
    (t.steps.flatMap fun step => step.delivery.events).mapM Event.toBytes = .ok chunks ∧
      chunks.flatten = (bytes.drop offset).take (t.final - offset)
  /-- It ends with the bytes, or where its last step failed. -/
  ended : t.final = bytes.length ∨
    ∃ last fault, t.steps.getLast? = some last ∧ last.offset = t.final ∧
      last.delivery.outcome = .error fault

/-- A message in front of what a walk covers. -/
theorem Trace.Covers.cons {n : Nat} {step : f.Step} {t : f.Trace}
    (h : t.Covers bytes (step.offset + n)) (hok : step.delivery.outcome = .ok n)
    (hstep : step.Accounts bytes) : (t.behind [step]).Covers bytes step.offset where
  offset_le := Nat.le_trans (Nat.le_add_right _ _) h.offset_le
  final_le := h.final_le
  encoded := by
    obtain ⟨-, event, hevents, hchunk⟩ := hstep.consumed n hok
    obtain ⟨chunks, hchunks, hflatten⟩ := h.encoded
    have hle : step.offset + n ≤ t.final := h.offset_le
    have hfinal : (t.behind [step]).final - step.offset = n + (t.final - (step.offset + n)) := by
      change t.final - step.offset = _
      omega
    have hsteps : (t.behind [step]).steps = step :: t.steps := rfl
    refine ⟨(bytes.drop step.offset).take n :: chunks, ?_, ?_⟩
    · rw [hsteps, List.flatMap_cons, hevents, List.singleton_append, List.mapM_cons, hchunk,
        hchunks]
      rfl
    · rw [hfinal, List.take_add, List.drop_drop, List.flatten_cons, hflatten]
  ended := by
    rcases h.ended with hend | ⟨last, fault, hlast, hoffset, hfault⟩
    · exact .inl hend
    · have hcons : (t.behind [step]).steps = step :: t.steps := rfl
      refine .inr ⟨last, fault, ?_, hoffset, hfault⟩
      rw [hcons, List.getLast?_cons, hlast]
      rfl

theorem walkFrom_covers (hle : offset ≤ bytes.length) :
    (f.walkFrom .stop f.everything bytes offset).Covers bytes offset := by
  induction offset using walkFrom.induct f .stop f.everything bytes with
  | case1 offset hlt delivery n hn ih =>
    have hok : delivery.outcome = .ok n := (stride?_stop_eq_some_iff _ _ n).1 hn
    have hstep : Step.Accounts bytes ⟨offset, delivery⟩ := accounts_dispatch hle
    obtain ⟨hwithin, -⟩ := hstep.consumed n hok
    rw [walkFrom_of_some f hlt hn]
    exact (ih hwithin).cons hok hstep
  | case2 offset hlt delivery hnone =>
    have hstep : Step.Accounts bytes ⟨offset, delivery⟩ := accounts_dispatch hle
    obtain ⟨fault, hfault⟩ : ∃ fault, delivery.outcome = .error fault :=
      exists_error_of_stride?_stop hnone
    have hevents : delivery.events = [] := hstep.failed fault hfault
    rw [walkFrom_of_none f hlt hnone]
    refine ⟨Nat.le_refl _, hle, ⟨[], ?_, ?_⟩, .inr ⟨_, fault, rfl, rfl, hfault⟩⟩
    · simp only [List.flatMap_cons, List.flatMap_nil, List.append_nil]
      rw [hevents]
      rfl
    · simp
  | case3 offset hge =>
    rw [walkFrom_of_le f (Nat.le_of_not_lt hge)]
    refine ⟨Nat.le_refl _, hle, ⟨[], rfl, by simp⟩, .inl ?_⟩
    exact Nat.le_antisymm hle (Nat.le_of_not_lt hge)

/-- **A walk accounts for every byte, whatever the bytes.** It begins at
the first, and goes on where each step ends. A step that succeeds
consumes bytes that are there and hands over one record, which is encoded
as exactly those; a step that fails hands over nothing. So what a walk
that stops has handed over, encoded again, is the bytes up to where it
ended, and it ended with the bytes or at a step that failed. -/
theorem walk_accounts (f : Family) {w : Walk} (hw : w ≠ .once) (bytes : Bytes) :
    let t := f.walk w f.everything bytes
    (∀ step ∈ t.steps.head?, step.offset = 0) ∧
    t.steps.IsChain (fun step next => next.offset = step.finish bytes) ∧
    (∀ step ∈ t.steps, step.Accounts bytes) ∧
    (w = .stop →
      t.final ≤ bytes.length ∧
      (∃ chunks,
        (t.steps.flatMap fun step => step.delivery.events).mapM Event.toBytes = .ok chunks ∧
          chunks.flatten = bytes.take t.final) ∧
      (t.final = bytes.length ∨
        ∃ last fault, t.steps.getLast? = some last ∧ last.offset = t.final ∧
          last.delivery.outcome = .error fault)) := by
  intro t
  have ht : t = f.walkFrom w f.everything bytes 0 := walk_eq_walkFrom hw f.everything bytes
  obtain ⟨hhead, hchain, haccounts⟩ := walkFrom_chain f w bytes 0
  rw [← ht] at hhead hchain haccounts
  refine ⟨hhead, hchain, haccounts, ?_⟩
  rintro rfl
  have hcovers : t.Covers bytes 0 := by
    rw [ht]
    exact walkFrom_covers (Nat.zero_le _)
  obtain ⟨chunks, hchunks, hflatten⟩ := hcovers.encoded
  exact ⟨hcovers.final_le, ⟨chunks, hchunks, hflatten⟩, hcovers.ended⟩

/-- A heartbeat, and a frame of no known kind that announces no length at
all. -/
def lengthless : Bytes := [0xBA, 0xBA, 8, 0, 3, 0, 0, 0, 0, 0, 0xBA, 0xBA, 0, 0, 0x7F]

theorem walk_accounts_lengthless :
    ((orderEntry.walk .skipUnknown orderEntry.everything lengthless).steps.map Step.offset =
        [0, 10, 12] ∧
      ∀ step ∈ (orderEntry.walk .skipUnknown orderEntry.everything lengthless).steps,
        step.Accounts lengthless) ∧
      (orderEntry.walk .stop orderEntry.everything lengthless).final = 10 ∧
      ∃ chunks,
        ((orderEntry.walk .stop orderEntry.everything lengthless).steps.flatMap
            fun step => step.delivery.events).mapM Event.toBytes = .ok chunks ∧
          chunks.flatten = lengthless.take 10 := by
  have hskip : Walk.skipUnknown ≠ .once := by decide
  have hstop : Walk.stop ≠ .once := by decide
  have hoffsets : (orderEntry.walk .skipUnknown orderEntry.everything lengthless).steps.map
      Step.offset = [0, 10, 12] := by cbv
  have hfinal : (orderEntry.walk .stop orderEntry.everything lengthless).final = 10 := by cbv
  obtain ⟨-, -, haccounts, -⟩ := walk_accounts orderEntry hskip lengthless
  obtain ⟨-, -, -, hcovers⟩ := walk_accounts orderEntry hstop lengthless
  obtain ⟨-, hencoded, -⟩ := hcovers rfl
  rw [hfinal] at hencoded
  exact ⟨⟨hoffsets, haccounts⟩, hfinal, hencoded⟩

end Family

end TradeWire
