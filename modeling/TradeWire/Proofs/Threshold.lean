import TradeWire.Proofs.Dispatching
/-!
# Threshold — when a verdict is in

As the bytes of a message arrive, its verdict is a lack of bytes up to
some length and one and the same answer from there on. For a message
that is accepted the length is its own; for one that is not, it is
wherever the rejected byte stands. `Threshold` says this of a verdict on
byte strings, and needs two facts of it: that an answer does not change
as bytes are added, and that what is accepted is accepted from its own
bytes alone.
-/

namespace TradeWire

-- Sums start from the zero of `Nat` itself, whatever algebra is in scope.
attribute [local instance (high)] Zero.ofOfNat0

open Decoder Message

/-- **A verdict that is a lack of bytes up to a length, and one answer
from there on.** `outcome` is what a verdict says of the bytes: how many
were taken, or why none were. From `enough` bytes on there is always an
answer. -/
structure Threshold {α : Type} (verdict : Bytes → α) (outcome : α → Except Fault Nat)
    (enough : Nat) : Prop where
  /-- A beginning of the bytes lacks bytes, or has their verdict. -/
  take : ∀ bytes k, outcome (verdict (bytes.take k)) = .error .shortBuffer ∨
    verdict (bytes.take k) = verdict bytes
  /-- An answer stays as it is when bytes are added. -/
  append : ∀ bytes more, outcome (verdict bytes) ≠ .error .shortBuffer →
    verdict (bytes ++ more) = verdict bytes
  /-- Fewer bytes than are taken in the end are too few. -/
  short_of_lt : ∀ bytes n k, outcome (verdict bytes) = .ok n → k < n →
    outcome (verdict (bytes.take k)) = .error .shortBuffer
  /-- And as many are enough. -/
  eq_of_le : ∀ bytes n k, outcome (verdict bytes) = .ok n → n ≤ k →
    verdict (bytes.take k) = verdict bytes
  /-- A lack of bytes is made up for in the end. -/
  ne_short : ∀ bytes, enough ≤ bytes.length → outcome (verdict bytes) ≠ .error .shortBuffer

namespace Threshold

variable {α : Type} {verdict : Bytes → α} {outcome : α → Except Fault Nat} {enough : Nat}

/-- **Two facts make a threshold.** An answer does not change as bytes are
added; and what is accepted takes no more than there is, and has an
answer from the bytes it takes. -/
theorem of_append
    (happend : ∀ bytes more, outcome (verdict bytes) ≠ .error .shortBuffer →
      verdict (bytes ++ more) = verdict bytes)
    (hown : ∀ bytes n, outcome (verdict bytes) = .ok n →
      n ≤ bytes.length ∧ outcome (verdict (bytes.take n)) ≠ .error .shortBuffer)
    (henough : ∀ bytes, enough ≤ bytes.length → outcome (verdict bytes) ≠ .error .shortBuffer) :
    Threshold verdict outcome enough := by
  -- an answer from a beginning of the bytes is the answer from all of them
  have hfinal : ∀ bytes k, outcome (verdict (bytes.take k)) ≠ .error .shortBuffer →
      verdict (bytes.take k) = verdict bytes := by
    intro bytes k h
    have hmore := happend _ (bytes.drop k) h
    rw [List.take_append_drop] at hmore
    exact hmore.symm
  have htake : ∀ bytes k, outcome (verdict (bytes.take k)) = .error .shortBuffer ∨
      verdict (bytes.take k) = verdict bytes := by
    intro bytes k
    by_cases h : outcome (verdict (bytes.take k)) = .error .shortBuffer
    · exact .inl h
    · exact .inr (hfinal bytes k h)
  refine ⟨htake, happend, fun bytes n k hok hlt => ?_, fun bytes n k hok hle => ?_, henough⟩
  · rcases htake bytes k with hshort | heq
    · exact hshort
    · -- the answer would take more bytes than it was given
      rw [← heq] at hok
      have hn := (hown _ n hok).1
      rw [List.length_take] at hn
      omega
  · have hn := (hown bytes n hok).2
    rw [← hfinal bytes n hn] at hok ⊢
    have hmore := happend _ ((bytes.drop n).take (k - n)) hn
    rwa [← List.take_add, Nat.add_sub_cancel' hle] at hmore

end Threshold

/-- Every frugal decoder has a threshold. -/
theorem Decoder.threshold_of_frugal {order : ByteOrder} {α : Type} {d : Decoder order α}
    {most : Nat} (hfrugal : d.Frugal) (hmost : d.AtMost most) :
    Threshold d.decode (fun verdict => verdict.map Prod.snd) most := by
  have houtcome : ∀ bytes, (d.decode bytes).map Prod.snd = .error .shortBuffer ↔
      d.decode bytes = .error .shortBuffer := by
    intro bytes
    cases d.decode bytes <;> simp [Except.map]
  refine .of_append (fun bytes more h => decode_append (mt (houtcome _).2 h) more) ?_
    fun bytes h => mt (houtcome _).1 (decode_ne_shortBuffer hmost h)
  intro bytes n h
  cases hdecode : d.decode bytes with
  | error fault =>
    rw [hdecode] at h
    cases h
  | ok found =>
    obtain ⟨v, m⟩ := found
    rw [hdecode] at h
    obtain rfl : m = n := Except.ok.inj h
    refine ⟨((decode_eq_ok_iff hfrugal bytes v m).1 hdecode).1, ?_⟩
    rw [decode_take_of_ok hfrugal hdecode]
    simp [Except.map]

/-! ## The longest messages -/

/-- A row asks for its fields and no more. -/
theorem Row.atMost_decoder {order : ByteOrder} {τ : Type} (row : Row τ) :
    (row.decoder order).AtMost row.widths.sum := by
  induction row with
  | nil => trivial
  | cons behind ih =>
    rw [widths, List.sum_cons]
    exact atMost_bind ((atMost_field _).2 (Nat.le_refl _)) fun _ =>
      atMost_bind ih fun _ => atMost_pure _ 0

namespace OrderEntry

/-- A framed message asks for its preamble, and for its body. -/
theorem atMost_framed {α : Type} {type : UInt8} {body : Header → Decoder .little α} {most : Nat}
    (hle : preambleSize ≤ most) (h : ∀ header, (body header).AtMost (most - preambleSize)) :
    (framed type body).AtMost most := by
  have hpreamble : (preamble type).AtMost preambleSize := by
    simp [preamble, marker, preambleSize, -bind_pure_comp]
  have hbody : (preamble type >>= fun found => body found.2 >>= fun value =>
      pure (found.1, value)).AtMost (preambleSize + (most - preambleSize + 0)) :=
    atMost_bind hpreamble fun _ => atMost_bind (h _) fun _ => atMost_pure _ 0
  rw [Nat.add_zero, Nat.add_sub_cancel' hle] at hbody
  refine (atMost_bind (atMost_measured hbody) fun _ => ?_ : AtMost _ (most + 0))
  simp [-bind_pure_comp]

/-- The legs of a cross are at most 255, and a leg is at most 41 bytes. -/
theorem NewOrderCross.atMost_refill (prior : NewOrderCross) : prior.refill.AtMost 10515 := by
  have hhead : ∀ header, (prior.refillHead header).AtMost 50 := by
    intro header
    simp [refillHead, Width.octets, -bind_pure_comp]
  have hleg : ∀ presence, (CrossGroup.decoder presence).AtMost (CrossGroup.size presence) := by
    intro presence
    cases h : presence.contains CrossGroup.accountIndex <;>
      simp [CrossGroup.decoder, CrossGroup.size, CrossGroup.minSize, h, -bind_pure_comp]
  refine atMost_framed (by decide) fun header => ?_
  refine AtMost.mono (atMost_bind (hhead header) fun found => ?_)
    (by decide : 50 + maxGroupCount * 41 ≤ 10515 - preambleSize)
  obtain ⟨r, count⟩ := found
  -- the count is one byte, so the room asked for the legs is bounded too
  have hcount : count.toNat * CrossGroup.size r.presence ≤ maxGroupCount * 41 := by
    refine Nat.mul_le_mul (Nat.le_of_lt_succ count.toNat_lt) ?_
    unfold CrossGroup.size
    split <;> decide
  have hlegs : (r.refillGroups count).AtMost (count.toNat * CrossGroup.size r.presence + 0) :=
    atMost_bind (atMost_repeated (hleg r.presence) count.toNat) fun _ => atMost_pure _ 0
  exact atMost_ensure_bind hcount (hlegs.mono hcount)

theorem atMost_refill (k : Kind) (prior : k.Record) : (refill prior).AtMost 10515 := by
  cases k with
  | loginRequest =>
    change (refill (M := LoginRequest) prior).AtMost 10515
    refine atMost_framed (by decide) fun header => ?_
    simp [preambleSize, -bind_pure_comp]
  | logoutRequest =>
    exact atMost_framed (by decide : preambleSize ≤ 10515) fun _ => atMost_pure _ _
  | clientHeartbeat =>
    exact atMost_framed (by decide : preambleSize ≤ 10515) fun _ => atMost_pure _ _
  | cancelOrder =>
    change (CancelOrder.refill prior).AtMost 10515
    refine atMost_framed (by decide) fun header => ?_
    simp [preambleSize, Width.octets, -bind_pure_comp]
  | newOrderCross => exact NewOrderCross.atMost_refill prior

end OrderEntry

namespace Feed

theorem atMost_refill (k : Kind) (prior : k.Record) : (refill prior).AtMost 30 := by
  have hbehind : k.row.widths.sum + 0 ≤ 30 - Field.size UInt8 := by cases k <;> decide
  rw [k.refill_eq, tag, bind_assoc]
  simp only [atMost_field_bind, atMost_require_bind]
  exact ⟨by decide, fun _ _ =>
    (atMost_bind k.row.atMost_decoder fun _ => atMost_pure _ 0).mono hbehind⟩

end Feed

namespace Family

variable {f : Family} {k : f.Kind} {listener : f.Listener} {bytes : Bytes}

/-- **The bytes of the longest message of a family:** a cross with all
its optional fields and 255 legs, or an added order. -/
def longest : Family → Nat
  | orderEntry => 10515
  | feed => 30

theorem atMost_refill (prior : f.Record k) : (refill prior).AtMost f.longest := by
  cases f with
  | orderEntry => exact OrderEntry.atMost_refill k prior
  | feed => exact Feed.atMost_refill k prior

theorem atMost_peekType (f : Family) : f.peekType.AtMost f.longest := by
  cases f with
  | orderEntry =>
    change OrderEntry.peekType.AtMost 10515
    simp [OrderEntry.peekType, OrderEntry.marker, -bind_pure_comp]
  | feed => exact (atMost_field _).2 (by decide)

/-- From so many bytes something is delivered, or refused. -/
theorem dispatch_ne_shortBuffer (h : f.longest ≤ bytes.length) :
    (f.dispatch listener bytes).outcome ≠ .error .shortBuffer := by
  rcases dispatch_cases listener bytes with
    ⟨fault, hpeek, heq⟩ | ⟨k, m, -, heq⟩ | ⟨type, m, -, -, heq⟩
  · have hne := decode_ne_shortBuffer f.atMost_peekType h
    rw [hpeek] at hne
    rw [heq]
    simpa using hne
  · have hne : f.decode k bytes ≠ .error .shortBuffer := decode_ne_shortBuffer (atMost_refill _) h
    rw [heq, deliver]
    split
    · simp
    · next fault hdecode =>
      rw [hdecode] at hne
      simpa using hne
  · rw [heq]
    simp

/-- **Verdicts and deliveries have a threshold.** Of every beginning of
the bytes the verdict of a decoder is a lack of bytes or that on all of
them, and what is accepted is accepted exactly from as many bytes on as
it takes; the same holds of a delivery together with what the listener is
handed. The lack ends at the longest message of the family. -/
theorem threshold (f : Family) :
    (∀ k, Threshold (f.decode k) (fun verdict => verdict.map Prod.snd) f.longest) ∧
    ∀ listener : f.Listener,
      Threshold (fun bytes => (f.dispatch listener bytes).handed) Prod.fst f.longest ∧
      ∀ bytes fault, (f.dispatch listener bytes).outcome = .error fault →
        (f.dispatch listener bytes).events = [] := by
  refine ⟨fun k => threshold_of_frugal (LawfulMessage.frugal_refill blank) (atMost_refill blank),
    fun listener => ⟨?_, fun bytes fault => events_of_error⟩⟩
  refine .of_append (fun bytes more h => dispatch_append h more) ?_
    fun bytes => dispatch_ne_shortBuffer
  intro bytes n h
  obtain ⟨k, record, hdecode⟩ := exists_decode_of_dispatch h
  have hown : f.decode k (bytes.take n) = .ok (record, n) :=
    decode_take_of_ok (LawfulMessage.frugal_refill blank) hdecode
  refine ⟨(decode_eq_ok_iff.1 hdecode).1, ?_⟩
  simp [dispatch_of_decode hown, Delivery.handed]

theorem threshold_shownFirm :
    (orderEntry.decode .cancelOrder (shownFirmBytes.take 34)).map Prod.snd =
        .error .shortBuffer ∧
      (orderEntry.dispatch (fun _ => true) (shownFirmBytes.take 34)).outcome =
        .error .shortBuffer ∧
      orderEntry.decode .cancelOrder (shownFirmBytes ++ [7]) = .ok (shownFirm, 35) := by
  have hall : orderEntry.decode .cancelOrder shownFirmBytes = .ok (shownFirm, 35) := rfl
  have hdispatch : (orderEntry.dispatch (fun _ => true) shownFirmBytes).outcome = .ok 35 := rfl
  obtain ⟨hdecoders, hdeliveries⟩ := threshold orderEntry
  refine ⟨?_, ?_, ?_⟩
  · exact (hdecoders .cancelOrder).short_of_lt shownFirmBytes 35 34 (by rw [hall]; rfl) (by decide)
  · obtain ⟨hdelivery, -⟩ := hdeliveries fun _ => true
    exact hdelivery.short_of_lt shownFirmBytes 35 34 hdispatch (by decide)
  · have happend := (hdecoders .cancelOrder).append shownFirmBytes [7]
      (by simp [hall, Except.map])
    exact happend.trans hall

end Family

end TradeWire
