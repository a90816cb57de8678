import Mathlib.Algebra.Order.Floor.Div
import TradeWire.Proofs.Boundaries
import TradeWire.Proofs.FeedGrammar
/-!
# Progress — every walk goes forward, and ends

A message takes the preamble of its family at least, or the bytes of the
shortest event, and a frame that is stepped over takes its marker, even
where it announces no length. So a step that does not end a walk leads
forward by so much, and the number of bytes bounds the number of steps.

Where a walk ends is another matter, since a frame of no known kind says
itself how long it is and need not be there. But its type has been seen,
and its length stands in front of the type. So the length is read inside
the bytes, and the walk overruns them by no more than the longest frame
without what has been seen of it.
-/

namespace TradeWire

namespace Family

open Message

variable {f : Family} {w : Walk} {listener : f.Listener} {bytes : Bytes} {offset n : Nat}

/-- **The least a message takes:** the preamble of order entry, or the
bytes of a system event. -/
def leastMessage : Family → Nat
  | orderEntry => 10
  | feed => 6

/-- **The least a frame of no known kind is stepped over by:** its marker,
where it announces no length, or one byte of the feed. -/
def leastFrame : Family → Nat
  | orderEntry => 2
  | feed => 1

/-- The most it is stepped over by. -/
def mostFrame : Family → Nat
  | orderEntry => 65537
  | feed => 1

/-- The bytes up to the type of a message, and with it. -/
def typeEnd : Family → Nat
  | orderEntry => 5
  | feed => 1

/-- The least a step leads forward that does not end its walk. -/
def leastStride (f : Family) (w : Walk) : Nat :=
  if w = .skipUnknown then f.leastFrame else f.leastMessage

/-- How far a walk may lead beyond its bytes. -/
def overrun (f : Family) (w : Walk) : Nat :=
  if w = .skipUnknown then f.mostFrame - f.typeEnd else 0

/-- **Where the steps of a walk stand:** the offset of each, and behind
them where the walk ended. -/
def Trace.offsetAt (t : f.Trace) (i : Nat) : Nat := (t.steps[i]?.map Step.offset).getD t.final

/-- **A walk makes progress, and ends.** -/
structure Trace.Progresses (w : Walk) (bytes : Bytes) (t : f.Trace) : Prop where
  /-- Behind a message it goes on by ten bytes at least, in the feed by
  six. -/
  message : ∀ i step n, t.steps[i]? = some step → step.delivery.outcome = .ok n →
    step.offset + f.leastMessage ≤ t.offsetAt (i + 1)
  /-- Behind a frame that it steps over it goes on by two bytes at least,
  in the feed by one. -/
  frame : w = .skipUnknown → ∀ i step, t.steps[i]? = some step →
    step.delivery.outcome = .error .unknownType → step.offset + f.leastFrame ≤ t.offsetAt (i + 1)
  /-- Where it stops at frames of no known kind, its steps are as many at
  most as there are messages that fit. -/
  stop_steps : w = .stop → t.steps.length ≤ bytes.length ⌈/⌉ f.leastMessage
  /-- Where it steps over them, as many as there are least frames that
  fit. -/
  skip_steps : w = .skipUnknown → t.steps.length ≤ bytes.length ⌈/⌉ f.leastFrame
  /-- The two bytes of length behind the marker of a frame are there. -/
  length_there : f = orderEntry → ∀ step ∈ t.steps,
    step.delivery.outcome = .error .unknownType → step.offset + 4 ≤ bytes.length
  /-- It ends inside the bytes, unless it steps over frames of order
  entry. -/
  final_le : ¬ (f = orderEntry ∧ w = .skipUnknown) → t.final ≤ bytes.length
  /-- Then it may end behind them, but no further than this. -/
  final_le_add : t.final ≤ bytes.length + 65532

/-! ## One step -/

/-- **What a delivery consumes** is there, and is a message. -/
theorem consumed_bounds (h : (f.dispatch listener bytes).outcome = .ok n) :
    f.leastMessage ≤ n ∧ n ≤ bytes.length := by
  cases f with
  | orderEntry =>
    obtain ⟨-, hmin, hle⟩ := eq_declaredSize_of_dispatch h
    exact ⟨hmin, hle⟩
  | feed =>
    obtain ⟨k, record, hdecode⟩ := exists_decode_of_dispatch h
    obtain ⟨hle, -, -⟩ := decode_eq_ok_iff.1 hdecode
    obtain ⟨-, hsize⟩ := Feed.of_decode_eq_ok hdecode
    have hleast : ∀ k : Feed.Kind, 6 ≤ k.size := by
      intro k
      cases k <;> decide
    exact ⟨hsize ▸ hleast k, hle⟩

/-- **What is stepped over** is a marker at least, and the longest frame at
most, whatever the bytes. -/
theorem unknownSize_bounds (f : Family) (bytes : Bytes) :
    f.leastFrame ≤ f.unknownSize bytes ∧ f.unknownSize bytes ≤ f.mostFrame := by
  cases f with
  | orderEntry =>
    have hlength : ((bytes.drop OrderEntry.markerSize).take 2).length ≤ 2 := List.length_take_le ..
    have hlt := ByteOrder.little.load_lt ((bytes.drop OrderEntry.markerSize).take 2)
    have hpow := Nat.pow_le_pow_right (by decide : 0 < 256) hlength
    have hmarker : OrderEntry.markerSize = 2 := rfl
    simp only [unknownSize, OrderEntry.declaredSize, leastFrame, mostFrame]
    omega
  | feed => exact ⟨Nat.le_refl _, Nat.le_refl _⟩

/-- **A type that is of no known kind has been seen,** with all that stands
in front of it. -/
theorem typeEnd_le (h : (f.dispatch listener bytes).outcome = .error .unknownType) :
    f.typeEnd ≤ bytes.length := by
  cases f with
  | orderEntry =>
    obtain ⟨type, m, hpeek, -⟩ := dispatch_eq_unknownType_iff.1 h
    obtain ⟨hle, -⟩ := (Decoder.decode_eq_ok_iff OrderEntry.frugal_peekType bytes type m).1 hpeek
    obtain ⟨rfl, -⟩ := OrderEntry.peekType_eq_ok_iff.1 hpeek
    exact hle
  | feed =>
    obtain ⟨type, rest, rfl, -⟩ := (Feed.dispatch_eq_unknownType_iff listener bytes).1 h
    exact Nat.succ_le_succ (Nat.zero_le _)

/-- **A step that does not end its walk** leads forward, and beyond the
bytes only over a frame. -/
theorem stride_bounds (h : f.stride? w bytes (f.dispatch listener bytes).outcome = some n) :
    f.leastStride w ≤ n ∧ n ≤ bytes.length + f.overrun w := by
  cases houtcome : (f.dispatch listener bytes).outcome with
  | ok consumed =>
    rw [houtcome] at h
    obtain ⟨-, hsome⟩ := Option.ite_none_left_eq_some.1 h
    obtain rfl : consumed = n := Option.some.inj hsome
    obtain ⟨hmin, hle⟩ := consumed_bounds houtcome
    have hframe : f.leastFrame ≤ f.leastMessage := by cases f <;> decide
    constructor
    · unfold leastStride
      split <;> omega
    · omega
  | error fault =>
    rw [houtcome] at h
    cases fault with
    | shortBuffer => cases h
    | badValue => cases h
    | unknownType =>
      obtain ⟨hskip, hsome⟩ := Option.ite_none_right_eq_some.1 h
      obtain rfl : f.unknownSize bytes = n := Option.some.inj hsome
      obtain ⟨hleast, hmost⟩ := unknownSize_bounds f bytes
      have hseen := typeEnd_le houtcome
      rw [leastStride, overrun, if_pos hskip, if_pos hskip]
      omega

/-! ## The steps of a walk -/

/-- There is a step at every place in front of the end. -/
theorem Trace.exists_step {t : f.Trace} {i : Nat} (hi : i < t.steps.length) :
    ∃ step, t.steps[i]? = some step ∧ t.offsetAt i = step.offset := by
  have hstep : t.steps[i]? = some t.steps[i] := List.getElem?_eq_getElem hi
  exact ⟨_, hstep, by rw [offsetAt, hstep]; rfl⟩

/-- Behind the last there is where the walk ended. -/
theorem Trace.offsetAt_of_le {t : f.Trace} {i : Nat} (hi : t.steps.length ≤ i) :
    t.offsetAt i = t.final := by
  rw [offsetAt, List.getElem?_eq_none hi]
  rfl

/-- A walk begins where it is told to. -/
theorem offsetAt_zero_walkFrom (f : Family) (w : Walk) (listener : f.Listener) (bytes : Bytes)
    (offset : Nat) : (f.walkFrom w listener bytes offset).offsetAt 0 = offset := by
  rw [walkFrom]
  split
  · dsimp only
    split <;> rfl
  · rfl

/-- **Every step of a walk** is made inside the bytes. It leads to the
next, or to where the walk ends; or it is the last, and the walk ends
there. -/
theorem of_step_walkFrom (offset : Nat) : ∀ (i : Nat) (step : f.Step),
    (f.walkFrom w listener bytes offset).steps[i]? = some step →
    step.offset < bytes.length ∧
    step.delivery = f.dispatch listener (bytes.drop step.offset) ∧
    (∀ n, f.stride? w (bytes.drop step.offset) step.delivery.outcome = some n →
      (f.walkFrom w listener bytes offset).offsetAt (i + 1) = step.offset + n) ∧
    (f.stride? w (bytes.drop step.offset) step.delivery.outcome = none →
      (f.walkFrom w listener bytes offset).steps.length = i + 1 ∧
        (f.walkFrom w listener bytes offset).final = step.offset) := by
  induction offset using walkFrom.induct f w listener bytes with
  | case1 offset hlt delivery n hn ih =>
    intro i step h
    rw [walkFrom_of_some f hlt hn] at h ⊢
    cases i with
    | zero =>
      obtain rfl := Option.some.inj h
      refine ⟨hlt, rfl, fun m hm => ?_, fun hnone => ?_⟩
      · obtain rfl : n = m := Option.some.inj (hn.symm.trans hm)
        exact offsetAt_zero_walkFrom f w listener bytes (offset + n)
      · cases hn.symm.trans hnone
    | succ i =>
      obtain ⟨hinside, hdelivery, hsome, hnone⟩ := ih i step h
      refine ⟨hinside, hdelivery, hsome, fun hlast => ?_⟩
      obtain ⟨hlength, hfinal⟩ := hnone hlast
      exact ⟨congrArg (· + 1) hlength, hfinal⟩
  | case2 offset hlt delivery hnone =>
    intro i step h
    rw [walkFrom_of_none f hlt hnone] at h ⊢
    cases i with
    | zero =>
      obtain rfl := Option.some.inj h
      refine ⟨hlt, rfl, fun m hm => ?_, fun _ => ⟨rfl, rfl⟩⟩
      cases hnone.symm.trans hm
    | succ i => cases h
  | case3 offset hle =>
    intro i step h
    rw [walkFrom_of_le f (Nat.le_of_not_lt hle)] at h
    cases h

/-- **The steps of a walk are so far apart** that each stands behind as many
least steps as there are steps in front of it. -/
theorem le_offsetAt_walkFrom {i : Nat}
    (hi : i < (f.walkFrom w listener bytes offset).steps.length) :
    offset + f.leastStride w * i ≤ (f.walkFrom w listener bytes offset).offsetAt i := by
  induction i with
  | zero =>
    rw [offsetAt_zero_walkFrom]
    exact Nat.le_refl _
  | succ i ih =>
    have hle := ih (Nat.lt_of_succ_lt hi)
    obtain ⟨step, hstep, hoffset⟩ := Trace.exists_step (Nat.lt_of_succ_lt hi)
    obtain ⟨-, hdelivery, hsome, hnone⟩ := of_step_walkFrom offset i step hstep
    cases hstride : f.stride? w (bytes.drop step.offset) step.delivery.outcome with
    | some n =>
      obtain ⟨hmin, -⟩ := stride_bounds (hdelivery ▸ hstride)
      rw [hsome n hstride, Nat.mul_succ]
      omega
    | none =>
      -- the last step has none behind it
      obtain ⟨hlength, -⟩ := hnone hstride
      omega

/-- **So there are no more of them than the bytes have room for.** -/
theorem length_steps_walkFrom_le (f : Family) (w : Walk) (listener : f.Listener) (bytes : Bytes) :
    (f.walkFrom w listener bytes 0).steps.length ≤ bytes.length ⌈/⌉ f.leastStride w := by
  have hpos : 0 < f.leastStride w := by cases f <;> cases w <;> decide
  cases hlength : (f.walkFrom w listener bytes 0).steps.length with
  | zero => exact Nat.zero_le _
  | succ i =>
    have hi : i < (f.walkFrom w listener bytes 0).steps.length := by omega
    have hle := le_offsetAt_walkFrom hi
    obtain ⟨last, hlast, hoffset⟩ := Trace.exists_step hi
    obtain ⟨hinside, -⟩ := of_step_walkFrom 0 i last hlast
    have hlt : ¬ bytes.length ⌈/⌉ f.leastStride w ≤ i := by
      rw [ceilDiv_le_iff_le_mul hpos]
      omega
    omega

/-- **A walk ends inside its bytes,** or not far behind them. -/
theorem final_walkFrom_le (f : Family) (w : Walk) (listener : f.Listener) (bytes : Bytes) :
    (f.walkFrom w listener bytes 0).final ≤ bytes.length + f.overrun w := by
  cases hlength : (f.walkFrom w listener bytes 0).steps.length with
  | zero =>
    have hstart := offsetAt_zero_walkFrom f w listener bytes 0
    rw [Trace.offsetAt_of_le (Nat.le_of_eq hlength)] at hstart
    omega
  | succ i =>
    have hi : i < (f.walkFrom w listener bytes 0).steps.length := by omega
    obtain ⟨last, hlast, -⟩ := Trace.exists_step hi
    obtain ⟨hinside, hdelivery, hsome, hnone⟩ := of_step_walkFrom 0 i last hlast
    cases hstride : f.stride? w (bytes.drop last.offset) last.delivery.outcome with
    | some n =>
      obtain ⟨-, hmost⟩ := stride_bounds (hdelivery ▸ hstride)
      have hfinal := hsome n hstride
      rw [Trace.offsetAt_of_le (Nat.le_of_eq hlength)] at hfinal
      rw [List.length_drop] at hmost
      omega
    | none =>
      obtain ⟨-, hfinal⟩ := hnone hstride
      omega

/-- Behind a message the walk goes on, and no less than a message further
on. -/
theorem add_leastMessage_le_offsetAt (hw : w ≠ .once) {i : Nat} {step : f.Step}
    (hstep : (f.walkFrom w listener bytes offset).steps[i]? = some step)
    (hok : step.delivery.outcome = .ok n) :
    step.offset + f.leastMessage ≤ (f.walkFrom w listener bytes offset).offsetAt (i + 1) := by
  obtain ⟨-, hdelivery, hsome, -⟩ := of_step_walkFrom offset i step hstep
  have hstride : f.stride? w (bytes.drop step.offset) step.delivery.outcome = some n := by
    rw [hok]
    exact if_neg hw
  obtain ⟨hmin, -⟩ := consumed_bounds (hdelivery ▸ hok)
  rw [hsome n hstride]
  omega

/-- Behind a frame that is stepped over it goes on likewise. -/
theorem add_leastFrame_le_offsetAt {i : Nat} {step : f.Step}
    (hstep : (f.walkFrom .skipUnknown listener bytes offset).steps[i]? = some step)
    (hunknown : step.delivery.outcome = .error .unknownType) :
    step.offset + f.leastFrame ≤
      (f.walkFrom .skipUnknown listener bytes offset).offsetAt (i + 1) := by
  obtain ⟨-, -, hsome, -⟩ := of_step_walkFrom offset i step hstep
  have hstride : f.stride? .skipUnknown (bytes.drop step.offset) step.delivery.outcome =
      some (f.unknownSize (bytes.drop step.offset)) := by
    rw [hunknown]
    rfl
  obtain ⟨hmin, -⟩ := unknownSize_bounds f (bytes.drop step.offset)
  rw [hsome _ hstride]
  omega

/-- What has been seen of such a frame stands inside the bytes. -/
theorem add_typeEnd_le_of_mem_walkFrom {step : f.Step}
    (hmem : step ∈ (f.walkFrom w listener bytes offset).steps)
    (hunknown : step.delivery.outcome = .error .unknownType) :
    step.offset + f.typeEnd ≤ bytes.length := by
  obtain ⟨i, hstep⟩ := List.mem_iff_getElem?.1 hmem
  obtain ⟨hinside, hdelivery, -⟩ := of_step_walkFrom offset i step hstep
  rw [hdelivery] at hunknown
  have hseen := typeEnd_le hunknown
  rw [List.length_drop] at hseen
  omega

/-! ## The walk -/

/-- A frame of no known kind that announces all that can be announced. -/
def overrunning : Bytes := [0xBA, 0xBA, 0xFF, 0xFF, 0x7F]

/-- It is stepped over, whoever listens, and there a walk is at its end. -/
theorem final_walk_overrunning (listener : orderEntry.Listener) :
    (orderEntry.walk .skipUnknown listener overrunning).final = overrunning.length + 65532 := by
  have hstride : orderEntry.stride? .skipUnknown (overrunning.drop 0)
      (orderEntry.dispatch listener (overrunning.drop 0)).outcome = some 65537 := rfl
  rw [walk, walkFrom_of_some orderEntry (by decide) hstride,
    walkFrom_of_le orderEntry (by decide)]
  rfl

/-- **Every walk makes progress, and ends,** whatever the bytes and whoever
listens. A step that does not end it leads forward by ten bytes over a
message and by two over a frame of no known kind, in the feed by six and
by one; and by as much the number of bytes bounds the number of steps. The
length of a frame that is stepped over is read inside the bytes. The walk
ends inside the bytes, or it has stepped over a frame of order entry and
ends no more than 65532 bytes behind them; and there a walk can end. -/
theorem walk_progress (f : Family) {w : Walk} (hw : w ≠ .once) (listener : f.Listener)
    (bytes : Bytes) :
    (f.walk w listener bytes).Progresses w bytes ∧
    ∀ listener : orderEntry.Listener, ∃ bytes : Bytes,
      (orderEntry.walk .skipUnknown listener bytes).final = bytes.length + 65532 := by
  rw [walk_eq_walkFrom hw]
  have hsteps := length_steps_walkFrom_le f w listener bytes
  have hfinal := final_walkFrom_le f w listener bytes
  have hoverrun : f.overrun w = if f = orderEntry ∧ w = .skipUnknown then 65532 else 0 := by
    cases f <;> cases w <;> rfl
  rw [hoverrun] at hfinal
  refine ⟨⟨?message, ?frame, ?stop, ?skip, ?length, ?inside, ?beyond⟩, ?attained⟩
  case message =>
    intro i step n hstep hok
    exact add_leastMessage_le_offsetAt hw hstep hok
  case frame =>
    rintro rfl i step hstep hunknown
    exact add_leastFrame_le_offsetAt hstep hunknown
  case stop =>
    rintro rfl
    exact hsteps
  case skip =>
    rintro rfl
    exact hsteps
  case length =>
    rintro rfl step hmem hunknown
    have hseen := add_typeEnd_le_of_mem_walkFrom hmem hunknown
    have hfive : orderEntry.typeEnd = 5 := rfl
    omega
  case inside =>
    intro hinside
    rw [if_neg hinside] at hfinal
    exact hfinal
  case beyond =>
    split at hfinal <;> omega
  case attained =>
    intro listener
    exact ⟨overrunning, final_walk_overrunning listener⟩

theorem walk_progress_overrunning :
    (orderEntry.walk .skipUnknown orderEntry.everything overrunning).Progresses .skipUnknown
        overrunning ∧
      (orderEntry.walk .skipUnknown orderEntry.everything overrunning).account =
        ([(0, .error .unknownType, [])], 65537) ∧
      (feed.walk .stop feed.everything twoEvents).Progresses .stop twoEvents ∧
      (feed.walk .stop feed.everything twoEvents).steps.map Step.offset = [0, 6] ∧
      twoEvents.length ⌈/⌉ feed.leastMessage = 2 := by
  have hskip : Walk.skipUnknown ≠ .once := by decide
  have hstop : Walk.stop ≠ .once := by decide
  obtain ⟨hframe, -⟩ := walk_progress orderEntry hskip orderEntry.everything overrunning
  obtain ⟨hevents, -⟩ := walk_progress feed hstop feed.everything twoEvents
  exact ⟨hframe, by cbv, hevents, by cbv, by decide⟩

end Family

end TradeWire
