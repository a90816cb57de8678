import TradeWire.Walk
import TradeWire.Proofs.Dispatching
/-!
# Resumption — a stream cut anywhere

Bytes arrive in pieces, and a walk of the first piece has to be worth
something once the next is there. It is: every step it makes but one
that lacks bytes is a step of the walk of all the bytes, made at the same
offset and with the same outcome. So a reader who keeps the bytes from
where the walk ended loses no message and sees none twice, wherever the
cut.

Steps are compared by what the listener sees of them. The log also tells
how many bytes were given, and that changes with the cut.
-/

namespace TradeWire

/-- **An outcome after which a walk is over,** whatever bytes arrive. -/
def Walk.Stops (w : Walk) (outcome : Except Fault Nat) : Prop :=
  outcome = .error .badValue ∨ w = .stop ∧ outcome = .error .unknownType

namespace Family

variable {f : Family} {w : Walk} {listener : f.Listener} {bytes before : Bytes} {offset : Nat}

/-- What the listener sees of a step: where it was made, its outcome, and
what was handed over. -/
def Step.account (step : f.Step) : Nat × Except Fault Nat × List f.Event :=
  (step.offset, step.delivery.handed)

/-- What the listener sees of a walk: its steps, and where it ended. -/
def Trace.account (t : f.Trace) : List (Nat × Except Fault Nat × List f.Event) × Nat :=
  (t.steps.map Step.account, t.final)

/-- A walk with the steps made before it. -/
def Trace.behind (t : f.Trace) (steps : List f.Step) : f.Trace :=
  { t with steps := steps ++ t.steps }

/-! ## One step -/

/-- A walk does not go on where it lacks bytes, and where it is over. -/
theorem stride?_eq_none_iff (hw : w ≠ .once) (bytes : Bytes) (outcome : Except Fault Nat) :
    f.stride? w bytes outcome = none ↔ outcome = .error .shortBuffer ∨ w.Stops outcome := by
  cases outcome with
  | ok n => simp [stride?, Walk.Stops, hw]
  | error fault => cases fault <;> cases w <;> simp_all [stride?, Walk.Stops]

/-- A step that does not lack bytes leads as far with more of them. -/
theorem stride?_append (h : (f.dispatch listener bytes).outcome ≠ .error .shortBuffer)
    (more : Bytes) :
    f.stride? w (bytes ++ more) (f.dispatch listener (bytes ++ more)).outcome =
      f.stride? w bytes (f.dispatch listener bytes).outcome := by
  have houtcome : (f.dispatch listener (bytes ++ more)).outcome =
      (f.dispatch listener bytes).outcome := congrArg Prod.fst (dispatch_append h more)
  rw [houtcome]
  cases hcase : (f.dispatch listener bytes).outcome with
  | ok n => rfl
  | error fault =>
    cases fault with
    | shortBuffer => rfl
    | badValue => rfl
    | unknownType => simp only [stride?, unknownSize_append hcase more]

/-- Such a step of a walk shows the same in the walk of more bytes, and
leads to the same offset. -/
theorem step_append (hle : offset ≤ before.length)
    (h : (f.dispatch listener (before.drop offset)).outcome ≠ .error .shortBuffer)
    (after : Bytes) :
    Step.account ⟨offset, f.dispatch listener ((before ++ after).drop offset)⟩ =
      Step.account ⟨offset, f.dispatch listener (before.drop offset)⟩ ∧
    f.stride? w ((before ++ after).drop offset)
        (f.dispatch listener ((before ++ after).drop offset)).outcome =
      f.stride? w (before.drop offset) (f.dispatch listener (before.drop offset)).outcome := by
  rw [List.drop_append_of_le_length hle]
  exact ⟨congrArg (Prod.mk offset) (dispatch_append h after), stride?_append h after⟩

/-! ## Walks of some bytes and of more -/

@[simp] theorem Trace.account_behind (t : f.Trace) (steps : List f.Step) :
    (t.behind steps).account = (steps.map Step.account ++ t.account.1, t.account.2) := by
  simp only [behind, account, List.map_append]

/-- **How a walk of so many bytes ends, and what the walk of more makes of
it;** `resumed` is the walk of more from where the first ended. -/
inductive Trace.Resumes (w : Walk) (size : Nat) (cut whole resumed : f.Trace) : Prop where
  /-- The last step lacks bytes, and is made again. -/
  | again (steps : List f.Step) (last : f.Step) (hsteps : cut.steps = steps ++ [last])
      (hlast : last.delivery.outcome = .error .shortBuffer)
      (hwhole : whole.account = (resumed.behind steps).account)
  /-- The walk is over. -/
  | halted (steps : List f.Step) (last : f.Step) (hsteps : cut.steps = steps ++ [last])
      (hlast : w.Stops last.delivery.outcome) (hwhole : whole.account = cut.account)
  /-- The walk is at the end of its bytes or beyond, and goes on. -/
  | onward (hsteps : ∀ step ∈ cut.steps,
        step.delivery.outcome ≠ .error .shortBuffer ∧ ¬ w.Stops step.delivery.outcome)
      (hsize : size ≤ cut.final) (hwhole : whole.account = (resumed.behind cut.steps).account)

/-- A step that shows the same and goes on changes nothing about the
walks behind it. -/
theorem Trace.Resumes.step {size : Nat} {cut whole resumed : f.Trace} {step step' : f.Step}
    (h : Resumes w size cut whole resumed) (haccount : step'.account = step.account)
    (hshort : step.delivery.outcome ≠ .error .shortBuffer)
    (hstops : ¬ w.Stops step.delivery.outcome) :
    Resumes w size (cut.behind [step]) (whole.behind [step']) resumed := by
  cases h with
  | again steps last hsteps hlast hwhole =>
    refine .again (step :: steps) last (congrArg (step :: ·) hsteps) hlast ?_
    simp [hwhole, haccount]
  | halted steps last hsteps hlast hwhole =>
    refine .halted (step :: steps) last (congrArg (step :: ·) hsteps) hlast ?_
    simp [hwhole, haccount]
  | onward hsteps hsize hwhole =>
    refine .onward (List.forall_mem_cons.2 ⟨⟨hshort, hstops⟩, hsteps⟩) hsize ?_
    have hcons : (cut.behind [step]).steps = step :: cut.steps := rfl
    simp [hcons, hwhole, haccount]

/-- **Every walk resumes.** -/
theorem walkFrom_resumes (hw : w ≠ .once) (listener : f.Listener) (before after : Bytes)
    (offset : Nat) :
    Trace.Resumes w before.length (f.walkFrom w listener before offset)
      (f.walkFrom w listener (before ++ after) offset)
      (f.walkFrom w listener (before ++ after) (f.walkFrom w listener before offset).final) := by
  have hlonger : ∀ {n}, n < before.length → n < (before ++ after).length := by
    intro n hn
    rw [List.length_append]
    omega
  induction offset using walkFrom.induct f w listener before with
  | case1 offset hlt delivery n hn ih =>
    -- the walk goes on, so the step is one of both walks
    have hgoes : ¬ (delivery.outcome = .error .shortBuffer ∨ w.Stops delivery.outcome) := by
      rw [← stride?_eq_none_iff hw, hn]
      simp
    obtain ⟨hshort, hstops⟩ := not_or.1 hgoes
    obtain ⟨haccount, hstride⟩ := step_append (w := w) (Nat.le_of_lt hlt) hshort after
    rw [walkFrom_of_some f hlt hn, walkFrom_of_some f (hlonger hlt) (hstride.trans hn)]
    exact ih.step haccount hshort hstops
  | case2 offset hlt delivery hnone =>
    rw [walkFrom_of_none f hlt hnone]
    rcases (stride?_eq_none_iff hw _ _).1 hnone with hshort | hstops
    · exact .again [] _ rfl hshort rfl
    · have hne : delivery.outcome ≠ .error .shortBuffer := by
        rcases hstops with hbad | ⟨-, hunknown⟩
        · simp [hbad]
        · simp [hunknown]
      obtain ⟨haccount, hstride⟩ := step_append (w := w) (Nat.le_of_lt hlt) hne after
      rw [walkFrom_of_none f (hlonger hlt) (hstride.trans hnone)]
      exact .halted [] _ rfl hstops (by simp [Trace.account, haccount])
  | case3 offset hle =>
    rw [walkFrom_of_le f (Nat.le_of_not_lt hle)]
    exact .onward (List.forall_mem_nil _) (Nat.le_of_not_lt hle) rfl

/-! ## The walk of a stream -/

theorem walk_eq_walkFrom (hw : w ≠ .once) (listener : f.Listener) (bytes : Bytes) :
    f.walk w listener bytes = f.walkFrom w listener bytes 0 := by
  cases w with
  | once => exact absurd rfl hw
  | stop => rfl
  | skipUnknown => rfl

/-- **A walk can be cut anywhere and resumed.** Where the walk of the
first bytes lacks bytes at its last step, the walk of all of them is that
walk without the step, and then the walk from where it ended. Where it is
over, the walk of all bytes is the same. Otherwise it has come to the end
of its bytes, or beyond, and the walk of all of them goes on from
there. -/
theorem walk_append (f : Family) {w : Walk} (hw : w ≠ .once) (listener : f.Listener)
    (before after : Bytes) :
    let cut := f.walk w listener before
    let whole := f.walk w listener (before ++ after)
    let resumed := f.walkFrom w listener (before ++ after) cut.final
    let ended := cut.steps.getLast?.map fun last => last.delivery.outcome
    (ended = some (.error .shortBuffer) →
      whole.account = (resumed.behind cut.steps.dropLast).account) ∧
    (ended = some (.error .badValue) ∨ w = .stop ∧ ended = some (.error .unknownType) →
      whole.account = cut.account) ∧
    (ended ≠ some (.error .shortBuffer) →
      ¬ (ended = some (.error .badValue) ∨ w = .stop ∧ ended = some (.error .unknownType)) →
      before.length ≤ cut.final ∧ whole.account = (resumed.behind cut.steps).account) := by
  intro cut whole resumed ended
  have hresumes : Trace.Resumes w before.length cut whole resumed := by
    have := walkFrom_resumes hw listener before after 0
    simp only [← walk_eq_walkFrom hw] at this
    exact this
  cases hresumes with
  | again steps last hsteps hlast hwhole =>
    have hended : ended = some (.error .shortBuffer) := by simp [ended, hsteps, hlast]
    refine ⟨fun _ => ?_, fun h => ?_, fun h => absurd hended h⟩
    · rw [hsteps, List.dropLast_concat]
      exact hwhole
    · simp [hended] at h
  | halted steps last hsteps hlast hwhole =>
    have hended : ended = some last.delivery.outcome := by simp [ended, hsteps]
    refine ⟨fun h => ?_, fun _ => hwhole, fun _ h => ?_⟩
    · have hshort := Option.some.inj (hended.symm.trans h)
      simp [Walk.Stops, hshort] at hlast
    · rcases hlast with hbad | ⟨hstop, hunknown⟩
      · exact absurd (.inl (by rw [hended, hbad])) h
      · exact absurd (.inr ⟨hstop, by rw [hended, hunknown]⟩) h
  | onward hsteps hsize hwhole =>
    have hgoes : ∀ outcome, ended = some outcome →
        outcome ≠ .error .shortBuffer ∧ ¬ w.Stops outcome := by
      intro outcome h
      obtain ⟨last, hlast, rfl⟩ := Option.map_eq_some_iff.1 h
      exact hsteps last (List.mem_of_getLast? hlast)
    refine ⟨fun h => absurd rfl (hgoes _ h).1, fun h => ?_, fun _ _ => ⟨hsize, hwhole⟩⟩
    rcases h with hbad | ⟨hstop, hunknown⟩
    · exact absurd (.inl rfl) (hgoes _ hbad).2
    · exact absurd (.inr ⟨hstop, rfl⟩) (hgoes _ hunknown).2

/-- A listener that wants every kind. -/
def everything (f : Family) : f.Listener := fun _ => true

/-- Two events of the feed, and for order entry no message at all. -/
def twoEvents : Bytes := [83, 0, 0, 0, 1, 79, 83, 0, 0, 0, 2, 81]

theorem walk_append_twoEvents :
    (feed.walk .skipUnknown feed.everything twoEvents).account =
        ((feed.walkFrom .skipUnknown feed.everything twoEvents 6).behind
          (feed.walk .skipUnknown feed.everything (twoEvents.take 9)).steps.dropLast).account ∧
      (feed.walk .skipUnknown feed.everything twoEvents).account =
        ((feed.walkFrom .skipUnknown feed.everything twoEvents 6).behind
          (feed.walk .skipUnknown feed.everything (twoEvents.take 6)).steps).account ∧
      (orderEntry.walk .stop orderEntry.everything twoEvents).account =
        (orderEntry.walk .stop orderEntry.everything (twoEvents.take 2)).account := by
  have hskip : Walk.skipUnknown ≠ .once := by decide
  have hstop : Walk.stop ≠ .once := by decide
  refine ⟨?_, ?_, ?_⟩
  · -- cut in the second event
    obtain ⟨hshort, -, -⟩ :=
      walk_append feed hskip feed.everything (twoEvents.take 9) (twoEvents.drop 9)
    have hfinal : (feed.walk .skipUnknown feed.everything (twoEvents.take 9)).final = 6 := by cbv
    have h := hshort (by cbv)
    rw [hfinal] at h
    exact h
  · -- cut between the two
    obtain ⟨-, -, hend⟩ :=
      walk_append feed hskip feed.everything (twoEvents.take 6) (twoEvents.drop 6)
    have hfinal : (feed.walk .skipUnknown feed.everything (twoEvents.take 6)).final = 6 := by cbv
    have hlast : (feed.walk .skipUnknown feed.everything (twoEvents.take 6)).steps.getLast?.map
        (fun last => last.delivery.outcome) = some (.ok 6) := by cbv
    have h := (hend (by simp [hlast]) (by simp [hlast])).2
    rw [hfinal] at h
    exact h
  · -- cut behind a marker that is none
    obtain ⟨-, hover, -⟩ :=
      walk_append orderEntry hstop orderEntry.everything (twoEvents.take 2) (twoEvents.drop 2)
    exact hover (.inl (by cbv))

end Family

end TradeWire
