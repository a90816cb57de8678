import TradeWire.Proofs.Dispatching
/-!
# Announcement — one delivery is the union of its decoders

A message shows its type before anything a decoder could reject, and each
decoder looks there first. So a look at the type and the decoders never
disagree, though they read the same bytes twice: where the look fails,
every decoder fails as it does, and where it sees a type, every decoder
of another type rejects the message right there (`Heeds`). What is left
to a decoder is the messages of its own type, and there a delivery is
that decoder.
-/

namespace TradeWire

open Decoder Message

/-! ## Decoders that look first -/

namespace Decoder

variable {order : ByteOrder} {α β : Type} {d : Decoder order α} {look : Decoder order UInt8}
  {type : UInt8} {bytes : Bytes}

/-- **A decoder heeds a look at the type** when what the look says against
a message of its own type is its verdict. -/
structure Heeds (d : Decoder order α) (look : Decoder order UInt8) (type : UInt8) : Prop where
  /-- Where the look fails, the decoder fails with it, at the same
  place. -/
  fails : ∀ {s t : Source order} {fault : Fault},
    look.run s = (.error fault, t) → d.run s = (.error fault, t)
  /-- Another type is rejected, right behind it. -/
  rejects : ∀ {s t : Source order} {found : UInt8},
    look.run s = (.ok found, t) → found ≠ type → d.run s = (.error .badValue, t)

/-- What reads as the look does, and then insists on its type, heeds the
look. -/
theorem heeds_require (first : Decoder order β) (tell : β → UInt8) (type : UInt8)
    (next : β → Decoder order α) :
    (do let seen ← first; require (tell seen = type); next seen).Heeds
      (do let seen ← first; pure (tell seen)) type where
  fails {s t fault} h := by
    rw [run_bind] at h ⊢
    rcases hfirst : first.run s with ⟨failed | seen, u⟩
    · rw [hfirst] at h
      cases h
      rfl
    · -- a look that has read its bytes does not fail
      rw [hfirst] at h
      cases h
  rejects {s t found} h hne := by
    rw [run_bind] at h ⊢
    rcases hfirst : first.run s with ⟨failed | seen, u⟩
    · rw [hfirst] at h
      cases h
    · rw [hfirst] at h
      cases h
      have hreject : (require (tell seen = type) : Decoder order Unit) = reject := if_neg hne
      dsimp only
      rw [hreject]
      rfl

/-- Whatever is read behind it. -/
theorem Heeds.bind (h : d.Heeds look type) (f : α → Decoder order β) :
    (d >>= f).Heeds look type where
  fails hlook := by rw [run_bind, h.fails hlook]
  rejects hlook hne := by rw [run_bind, h.rejects hlook hne]

/-- And measured or not. -/
theorem Heeds.measured (h : d.Heeds look type) : d.measured.Heeds look type where
  fails hlook := by rw [run_measured, h.fails hlook]
  rejects hlook hne := by rw [run_measured, h.rejects hlook hne]

/-- A decode fails where the look at its bytes does. -/
theorem Heeds.decode_of_error (h : d.Heeds look type) {fault : Fault}
    (hlook : look.decode bytes = .error fault) : d.decode bytes = .error fault := by
  rw [decode_eq_error_iff] at hlook ⊢
  have hrun := h.fails (Prod.ext hlook rfl)
  exact congrArg Prod.fst hrun

/-- And rejects what the look finds to be of another type. -/
theorem Heeds.decode_of_ne (h : d.Heeds look type) {found : UInt8} {m : Nat}
    (hlook : look.decode bytes = .ok (found, m)) (hne : found ≠ type) :
    d.decode bytes = .error .badValue := by
  rw [decode_eq_error_iff]
  rcases hrun : look.run (Source.ofBytes bytes) with ⟨fault | seen, t⟩
  · rw [decode, hrun] at hlook
    cases hlook
  · rw [decode, hrun] at hlook
    cases hlook
    have hrejects := h.rejects hrun hne
    exact congrArg Prod.fst hrejects

end Decoder

/-! ## Every decoder looks first -/

namespace OrderEntry

/-- What stands in front of the header: the length and the type that a
message announces. -/
def announced : Decoder .little (UInt16 × UInt8) := do
  marker
  let length ← field
  let found ← field
  pure (length, found)

theorem heeds_framed {α : Type} (type : UInt8) (body : Header → Decoder .little α) :
    (framed type body).Heeds peekType type := by
  have hpeek : peekType = announced >>= fun seen => pure seen.2 := by
    simp only [peekType, announced, bind_assoc, pure_bind, bind_pure]
  have hpreamble : preamble type = (do
      let seen ← announced
      require (seen.2 = type)
      let matchingUnit ← field
      let sequenceNumber ← field
      pure (seen.1, { matchingUnit, sequenceNumber })) := by
    simp only [preamble, announced, bind_assoc, pure_bind]
  have hheeds : (preamble type).Heeds peekType type := by
    rw [hpeek, hpreamble]
    exact heeds_require announced Prod.snd type _
  exact (hheeds.bind _).measured.bind _

end OrderEntry

namespace Feed

theorem heeds_tag {α : Type} (type : UInt8) (body : Decoder .big α) :
    (do tag type; body).Heeds peekType type := by
  have hpeek : peekType = field >>= fun seen => pure seen := by
    rw [bind_pure]
    rfl
  have htag : (do tag type; body) =
      field >>= fun seen => require (seen = type) >>= fun _ => body := by
    rw [tag, bind_assoc]
  rw [hpeek, htag]
  exact heeds_require field id type fun _ => body

end Feed

namespace Family

variable {f : Family} {k : f.Kind} {listener : f.Listener} {bytes : Bytes}

/-- **Every decoder heeds a look at the type,** over whatever record. -/
theorem heeds_refill (f : Family) (k : f.Kind) (prior : f.Record k) :
    (refill prior).Heeds f.peekType (f.typeOf k) := by
  cases f with
  | orderEntry =>
    obtain ⟨body, hbody⟩ := OrderEntry.exists_refill_eq_framed k prior
    exact hbody ▸ OrderEntry.heeds_framed _ body
  | feed =>
    obtain ⟨body, hbody⟩ := Feed.exists_refill_eq_tag k prior
    exact hbody ▸ Feed.heeds_tag _ body

/-! ## What the decoders and a delivery make of the same bytes -/

/-- Kinds announced by one byte are one kind. -/
theorem eq_of_typeOf {k k' : f.Kind} (h : f.typeOf k = f.typeOf k') : k = k' := by
  have hk := kindOf?_typeOf f k
  rw [h, kindOf?_typeOf] at hk
  exact (Option.some.inj hk).symm

/-- **At most one decoder accepts,** whatever the bytes: it has seen its
own type, and they have one. -/
theorem kind_unique {k k' : f.Kind} {record : f.Record k} {record' : f.Record k'} {n n' : Nat}
    (h : f.decode k bytes = .ok (record, n)) (h' : f.decode k' bytes = .ok (record', n')) :
    k = k' := by
  obtain ⟨m, hpeek⟩ := peekType_of_decode h
  obtain ⟨m', hpeek'⟩ := peekType_of_decode h'
  have htype : f.typeOf k = f.typeOf k' := by
    have hboth := Except.ok.inj (hpeek.symm.trans hpeek')
    exact congrArg Prod.fst hboth
  exact eq_of_typeOf htype

/-- Where the type cannot be seen, no decoder can do better. -/
theorem decode_of_peekType_error {fault : Fault} (h : f.peekType.decode bytes = .error fault)
    (k : f.Kind) : f.decode k bytes = .error fault :=
  (f.heeds_refill k blank).decode_of_error h

/-- And where it is another, there is nothing to decode. -/
theorem decode_of_peekType_ne {type : UInt8} {m : Nat}
    (h : f.peekType.decode bytes = .ok (type, m)) (hne : type ≠ f.typeOf k) :
    f.decode k bytes = .error .badValue :=
  (f.heeds_refill k blank).decode_of_ne h hne

/-- A delivery of a known kind hands over what its decoder makes. -/
theorem handed_deliver (k : f.Kind) (listener : f.Listener) (bytes : Bytes) :
    (f.deliver k listener bytes).outcome = (f.decode k bytes).map Prod.snd ∧
    (f.deliver k listener bytes).events = match f.decode k bytes with
      | .ok (record, _) => if listener k then [⟨k, record⟩] else []
      | .error _ => [] := by
  unfold deliver
  rcases f.decode k bytes with fault | ⟨record, n⟩
  · exact ⟨rfl, rfl⟩
  · exact ⟨rfl, rfl⟩

/-- **A delivery is exactly the union of its decoders.** At most one
decoder accepts the bytes. Where a look sees the type of a kind, the
delivery has the verdict of that kind's decoder, and hands over its record.
Where the look fails, the delivery and all decoders fail as it does. The
type is unknown exactly where a look sees one of no kind, and then every
decoder rejects the bytes. So a delivery consumes as many bytes as some
decoder takes, or fails where all of them do. -/
theorem dispatch_union (f : Family) (listener : f.Listener) (bytes : Bytes) :
    let delivery := f.dispatch listener bytes
    (∀ (k k' : f.Kind) (record : f.Record k) (record' : f.Record k') (n n' : Nat),
      f.decode k bytes = .ok (record, n) → f.decode k' bytes = .ok (record', n') → k = k') ∧
    (∀ (k : f.Kind) (m : Nat), f.peekType.decode bytes = .ok (f.typeOf k, m) →
      delivery.outcome = (f.decode k bytes).map Prod.snd ∧
      delivery.events = match f.decode k bytes with
        | .ok (record, _) => if listener k then [⟨k, record⟩] else []
        | .error _ => []) ∧
    (∀ fault : Fault, f.peekType.decode bytes = .error fault →
      delivery.outcome = .error fault ∧ delivery.events = [] ∧
      ∀ k : f.Kind, f.decode k bytes = .error fault) ∧
    (delivery.outcome = .error .unknownType ↔
      ∃ type m, f.peekType.decode bytes = .ok (type, m) ∧ ∀ k : f.Kind, f.typeOf k ≠ type) ∧
    (delivery.outcome = .error .unknownType →
      ∀ k : f.Kind, f.decode k bytes = .error .badValue) ∧
    ∀ n : Nat, delivery.outcome = .ok n ↔
      ∃ (k : f.Kind) (record : f.Record k), f.decode k bytes = .ok (record, n) := by
  intro delivery
  have hunknown : delivery.outcome = .error .unknownType ↔
      ∃ type m, f.peekType.decode bytes = .ok (type, m) ∧ ∀ k : f.Kind, f.typeOf k ≠ type := by
    simp only [← kindOf?_eq_none_iff]
    exact dispatch_eq_unknownType_iff
  refine ⟨fun k k' record record' n n' h h' => kind_unique h h', ?_, ?_, hunknown, ?_, ?_⟩
  · intro k m hpeek
    have hdeliver : delivery = f.deliver k listener bytes := dispatch_of_peekType hpeek
    rw [hdeliver]
    exact handed_deliver k listener bytes
  · intro fault hpeek
    have hfails : delivery = { outcome := .error fault, events := [], log := [] } := by
      simp only [delivery, dispatch, hpeek]
    rw [hfails]
    exact ⟨rfl, rfl, decode_of_peekType_error hpeek⟩
  · intro h k
    obtain ⟨type, m, hpeek, hnone⟩ := hunknown.1 h
    exact decode_of_peekType_ne hpeek (hnone k).symm
  · intro n
    constructor
    · exact exists_decode_of_dispatch
    · rintro ⟨k, record, hdecode⟩
      have hdelivered : delivery = {
          outcome := .ok n
          events := if listener k then [⟨k, record⟩] else []
          log := [.dispatched (f.nameOf k) n] } := dispatch_of_decode hdecode
      rw [hdelivered]

theorem dispatch_union_shownFirm :
    (orderEntry.dispatch (fun _ => true) shownFirmBytes).outcome = .ok 35 ∧
      (orderEntry.dispatch (fun _ => true) shownFirmBytes).events = [⟨.cancelOrder, shownFirm⟩] ∧
      (∀ k record n, orderEntry.decode k shownFirmBytes = .ok (record, n) → k = .cancelOrder) ∧
      (∀ k, orderEntry.decode k (shownFirmBytes.take 4) = .error .shortBuffer) ∧
      ∀ k, orderEntry.decode k (shownFirmBytes.set 4 0x7F) = .error .badValue := by
  have hdecode : orderEntry.decode .cancelOrder shownFirmBytes = .ok (shownFirm, 35) := rfl
  have hpeek : orderEntry.peekType.decode shownFirmBytes =
      .ok (orderEntry.typeOf .cancelOrder, 5) := rfl
  have hshort : orderEntry.peekType.decode (shownFirmBytes.take 4) = .error .shortBuffer := rfl
  have hunknown : (orderEntry.dispatch (fun _ => true) (shownFirmBytes.set 4 0x7F)).outcome =
      .error .unknownType := rfl
  obtain ⟨hunique, hknown, -, -, -, -⟩ := dispatch_union orderEntry (fun _ => true) shownFirmBytes
  obtain ⟨-, -, hfails, -, -, -⟩ :=
    dispatch_union orderEntry (fun _ => true) (shownFirmBytes.take 4)
  obtain ⟨-, -, -, -, hrejects, -⟩ :=
    dispatch_union orderEntry (fun _ => true) (shownFirmBytes.set 4 0x7F)
  obtain ⟨houtcome, hevents⟩ := hknown .cancelOrder 5 hpeek
  rw [hdecode] at houtcome hevents
  refine ⟨houtcome, hevents, fun k record n h => ?_, (hfails _ hshort).2.2, hrejects hunknown⟩
  exact hunique k .cancelOrder record shownFirm n 35 h hdecode

end Family

end TradeWire
