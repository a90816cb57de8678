import TradeWire.Proofs.Resumption
/-!
# Listening — whoever listens changes nothing

A listener is asked whether it wants a kind, and that only of a message
that has been decoded to its last byte. So there is one walk of a byte
string, whoever listens: the walk of a listener is that of the listener
that wants everything, with the events left out that it does not want
(`walk_eq_heardBy`). A message of a kind no one wants is judged, consumed
and told to the log like any other.
-/

namespace TradeWire

namespace Family

variable {f : Family} {w : Walk} {bytes : Bytes} {offset : Nat}

/-! ## What a listener hears, and what it has no part in -/

/-- A delivery with the events left out that a listener does not want. -/
def Delivery.heardBy (listener : f.Listener) (d : f.Delivery) : f.Delivery :=
  { d with events := d.events.filter fun event => listener event.kind }

/-- A step with the events left out that a listener does not want. -/
def Step.heardBy (listener : f.Listener) (step : f.Step) : f.Step :=
  { step with delivery := step.delivery.heardBy listener }

/-- A walk with the events left out that a listener does not want. -/
def Trace.heardBy (listener : f.Listener) (t : f.Trace) : f.Trace :=
  { t with steps := t.steps.map (Step.heardBy listener) }

/-- All that was handed over along a walk, in the order of handing over. -/
def Trace.events (t : f.Trace) : List f.Event := t.steps.flatMap fun step => step.delivery.events

/-- **The course of a step** is all of it that no listener has a part in:
where it was made, its outcome, and what the log was told. -/
def Step.course (step : f.Step) : Nat × Except Fault Nat × List Log.Entry :=
  (step.offset, step.delivery.outcome, step.delivery.log)

/-- The course of a walk: that of its steps, and where it ended. -/
def Trace.course (t : f.Trace) : List (Nat × Except Fault Nat × List Log.Entry) × Nat :=
  (t.steps.map Step.course, t.final)

@[simp] theorem Trace.course_heardBy (listener : f.Listener) (t : f.Trace) :
    (t.heardBy listener).course = t.course := by
  simp only [heardBy, course, List.map_map]
  rfl

/-- **What a step hands to a listener:** the record that the decoder of its
kind made of the bytes, where the listener wants the kind, and nothing
else. -/
structure Step.Hands (listener : f.Listener) (bytes : Bytes) (step : f.Step) : Prop where
  /-- There is one call at most. -/
  length_le : step.delivery.events.length ≤ 1
  /-- A message that is consumed was decoded, wanted or not. -/
  decoded : ∀ n, step.delivery.outcome = .ok n →
    ∃ (k : f.Kind) (record : f.Record k), f.decode k (bytes.drop step.offset) = .ok (record, n) ∧
      step.delivery.events = if listener k then [⟨k, record⟩] else []
  /-- Where nothing is consumed there is no call. -/
  failed : ∀ fault, step.delivery.outcome = .error fault → step.delivery.events = []

/-! ## One delivery -/

theorem deliver_eq_heardBy (k : f.Kind) (listener : f.Listener) (bytes : Bytes) :
    f.deliver k listener bytes = (f.deliver k f.everything bytes).heardBy listener := by
  unfold deliver
  rcases f.decode k bytes with fault | ⟨record, n⟩
  · rfl
  · cases hwants : listener k with
    | false => simp [Delivery.heardBy, everything, hwants]
    | true => simp [Delivery.heardBy, everything, hwants]

/-- **A delivery is the same to every listener,** but for the events it
does not want. -/
theorem dispatch_eq_heardBy (listener : f.Listener) (bytes : Bytes) :
    f.dispatch listener bytes = (f.dispatch f.everything bytes).heardBy listener := by
  unfold dispatch
  rcases f.peekType.decode bytes with fault | ⟨type, m⟩
  · rfl
  · dsimp only
    cases f.kindOf? type with
    | none => rfl
    | some k => exact deliver_eq_heardBy k listener bytes

theorem hands_dispatch (listener : f.Listener) (bytes : Bytes) (offset : Nat) :
    Step.Hands listener bytes ⟨offset, f.dispatch listener (bytes.drop offset)⟩ := by
  have hdecoded : ∀ n, (f.dispatch listener (bytes.drop offset)).outcome = .ok n →
      ∃ (k : f.Kind) (record : f.Record k), f.decode k (bytes.drop offset) = .ok (record, n) ∧
        (f.dispatch listener (bytes.drop offset)).events =
          if listener k then [⟨k, record⟩] else [] := by
    intro n h
    obtain ⟨k, record, hdecode⟩ := exists_decode_of_dispatch h
    exact ⟨k, record, hdecode, by rw [dispatch_of_decode hdecode]⟩
  refine ⟨?_, hdecoded, fun fault h => events_of_error h⟩
  dsimp only
  cases houtcome : (f.dispatch listener (bytes.drop offset)).outcome with
  | error fault =>
    rw [events_of_error houtcome]
    exact Nat.zero_le 1
  | ok n =>
    obtain ⟨k, record, -, hevents⟩ := hdecoded n houtcome
    rw [hevents]
    split
    · exact Nat.le_refl 1
    · exact Nat.zero_le 1

/-! ## The steps of a walk -/

/-- **A walk is the same to every listener,** but for the events it does not
want: whether it goes on hangs on the outcomes alone. -/
theorem walkFrom_eq_heardBy (w : Walk) (listener : f.Listener) (bytes : Bytes) (offset : Nat) :
    f.walkFrom w listener bytes offset =
      (f.walkFrom w f.everything bytes offset).heardBy listener := by
  have houtcome : ∀ given, (f.dispatch listener given).outcome =
      (f.dispatch f.everything given).outcome := by
    intro given
    rw [dispatch_eq_heardBy]
    rfl
  have hstep : ∀ offset, (⟨offset, f.dispatch listener (bytes.drop offset)⟩ : f.Step) =
      Step.heardBy listener ⟨offset, f.dispatch f.everything (bytes.drop offset)⟩ := by
    intro offset
    rw [dispatch_eq_heardBy]
    rfl
  induction offset using walkFrom.induct f w listener bytes with
  | case1 offset hlt delivery n hn ih =>
    have hgoes : f.stride? w (bytes.drop offset)
        (f.dispatch f.everything (bytes.drop offset)).outcome = some n := houtcome _ ▸ hn
    rw [walkFrom_of_some f hlt hn, walkFrom_of_some f hlt hgoes, ih, hstep]
    rfl
  | case2 offset hlt delivery hnone =>
    have hstops : f.stride? w (bytes.drop offset)
        (f.dispatch f.everything (bytes.drop offset)).outcome = none := houtcome _ ▸ hnone
    rw [walkFrom_of_none f hlt hnone, walkFrom_of_none f hlt hstops, hstep]
    rfl
  | case3 offset hle =>
    rw [walkFrom_of_le f (Nat.le_of_not_lt hle), walkFrom_of_le f (Nat.le_of_not_lt hle)]
    rfl

theorem walk_eq_heardBy (w : Walk) (listener : f.Listener) (bytes : Bytes) :
    f.walk w listener bytes = (f.walk w f.everything bytes).heardBy listener := by
  cases w with
  | once =>
    unfold walk
    rw [dispatch_eq_heardBy]
    rfl
  | stop => exact walkFrom_eq_heardBy .stop listener bytes 0
  | skipUnknown => exact walkFrom_eq_heardBy .skipUnknown listener bytes 0

/-- The first step of a walk is made where it begins, if there are bytes. -/
theorem mem_steps_walkFrom {listener : f.Listener} (hlt : offset < bytes.length) :
    ⟨offset, f.dispatch listener (bytes.drop offset)⟩ ∈
      (f.walkFrom w listener bytes offset).steps := by
  cases hstride : f.stride? w (bytes.drop offset)
      (f.dispatch listener (bytes.drop offset)).outcome with
  | some n =>
    rw [walkFrom_of_some f hlt hstride]
    exact List.mem_cons_self
  | none =>
    rw [walkFrom_of_none f hlt hstride]
    exact List.mem_singleton_self _

/-- Every step of a walk is the delivery of the bytes from its offset on. -/
theorem delivery_of_mem_walkFrom {listener : f.Listener} {step : f.Step}
    (h : step ∈ (f.walkFrom w listener bytes offset).steps) :
    step.delivery = f.dispatch listener (bytes.drop step.offset) := by
  induction offset using walkFrom.induct f w listener bytes with
  | case1 offset hlt delivery n hn ih =>
    rw [walkFrom_of_some f hlt hn] at h
    rcases List.mem_cons.1 h with rfl | hrest
    · rfl
    · exact ih hrest
  | case2 offset hlt delivery hnone =>
    rw [walkFrom_of_none f hlt hnone] at h
    obtain rfl := List.mem_singleton.1 h
    rfl
  | case3 offset hle =>
    rw [walkFrom_of_le f (Nat.le_of_not_lt hle)] at h
    cases h

theorem delivery_of_mem_walk {listener : f.Listener} {step : f.Step}
    (h : step ∈ (f.walk w listener bytes).steps) :
    step.delivery = f.dispatch listener (bytes.drop step.offset) := by
  cases w with
  | once =>
    obtain rfl := List.mem_singleton.1 h
    rfl
  | stop | skipUnknown => exact delivery_of_mem_walkFrom h

/-! ## Walks and their listeners -/

/-- **Listeners observe a walk and have no part in it.** To any two of them
the steps are made at the same offsets, consume as much or fail with the
same fault, tell the log the same, and the walk ends at the same place. A
listener is handed what the one that wants everything is handed, step by
step and in the same order, less the kinds it does not want: for each
message at most one record, the one its decoder made of the bytes, and for
a delivery that fails none. -/
theorem walk_heard (f : Family) (w : Walk) (bytes : Bytes) :
    (∀ first second : f.Listener,
      (f.walk w first bytes).course = (f.walk w second bytes).course) ∧
    ∀ listener : f.Listener,
      let t := f.walk w listener bytes
      let all := f.walk w f.everything bytes
      (t.steps.map fun step => step.delivery.events) =
        all.steps.map (fun step => step.delivery.events.filter fun event => listener event.kind) ∧
      t.events = all.events.filter (fun event => listener event.kind) ∧
      ∀ step ∈ t.steps, step.Hands listener bytes := by
  refine ⟨fun first second => ?_, fun listener => ?_⟩
  · rw [walk_eq_heardBy w first, walk_eq_heardBy w second, Trace.course_heardBy,
      Trace.course_heardBy]
  · intro t all
    have hall : t = all.heardBy listener := walk_eq_heardBy w listener bytes
    have hsteps : (t.steps.map fun step => step.delivery.events) =
        all.steps.map (fun step => step.delivery.events.filter fun event => listener event.kind) := by
      rw [hall, Trace.heardBy, List.map_map]
      rfl
    refine ⟨hsteps, ?_, fun step hstep => ?_⟩
    · unfold Trace.events
      rw [List.filter_flatMap, List.flatMap_def, List.flatMap_def, hsteps]
    · have hdelivery := delivery_of_mem_walk hstep
      have hhands := hands_dispatch listener bytes step.offset
      rw [← hdelivery] at hhands
      exact hhands

/-- A listener that wants to hear of orders taken off the book. -/
def removalsOnly : feed.Listener
  | .deleteOrder => true
  | _ => false

/-- An event, a byte that is no tag, and an order taken off the book. -/
def eventAndRemoval : Bytes := [83, 0, 0, 0, 1, 79, 0x5A, 68, 0, 0, 0, 2, 0, 0, 0, 0, 0, 0, 0, 7]

theorem walk_heard_removalsOnly :
    (feed.walk .skipUnknown removalsOnly eventAndRemoval).course =
        (feed.walk .skipUnknown (fun _ => false) eventAndRemoval).course ∧
      (feed.walk .skipUnknown removalsOnly eventAndRemoval).final = 20 ∧
      (feed.walk .skipUnknown removalsOnly eventAndRemoval).events =
        [⟨.deleteOrder, ({ timestamp := 2, orderId := 7 } : Feed.DeleteOrder)⟩] ∧
      ⟨0, feed.dispatch removalsOnly eventAndRemoval⟩ ∈
        (feed.walk .skipUnknown removalsOnly eventAndRemoval).steps ∧
      Step.Hands removalsOnly eventAndRemoval ⟨0, feed.dispatch removalsOnly eventAndRemoval⟩ := by
  obtain ⟨hcourse, hlisteners⟩ := walk_heard feed .skipUnknown eventAndRemoval
  obtain ⟨-, hevents, hhands⟩ := hlisteners removalsOnly
  have hall : (feed.walk .skipUnknown feed.everything eventAndRemoval).events =
      [⟨.systemEvent, ({ timestamp := 1, eventCode := 79 } : Feed.SystemEvent)⟩,
        ⟨.deleteOrder, ({ timestamp := 2, orderId := 7 } : Feed.DeleteOrder)⟩] := by cbv
  have hfinal : (feed.walk .skipUnknown removalsOnly eventAndRemoval).final = 20 := by cbv
  have hthere : 0 < eventAndRemoval.length := by decide
  have hfirst : ⟨0, feed.dispatch removalsOnly eventAndRemoval⟩ ∈
      (feed.walk .skipUnknown removalsOnly eventAndRemoval).steps := mem_steps_walkFrom hthere
  rw [hall] at hevents
  exact ⟨hcourse _ _, hfinal, hevents, hfirst, hhands _ hfirst⟩

end Family

end TradeWire
