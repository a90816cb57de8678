import TradeWire.OrderEntry.Session
import TradeWire.OrderEntry.CancelOrder
import TradeWire.Proofs.PreambleLaws
/-!
# Order entry — session messages and cancellations are lawful

Each is a preamble and a body, so what is to be checked is the body. A
session message shows all of its record, as a row of fields or as a preamble
alone. A cancellation shows its clearing firm where it says so, and reads a
blank one elsewhere.
-/

namespace TradeWire

namespace OrderEntry

open Decoder Message

/-! ## Session messages -/

instance : LawfulMessage .little LoginRequest :=
  lawful_of_row (.cons (.cons (.cons .nil)))
    { toFun := fun r => (r.header, r.sessionSubId, r.username, r.password, ())
      invFun := fun (header, sessionSubId, username, password, _) =>
        { header, sessionSubId, username, password } }
    (fun _ => rfl) (fun _ => rfl) (fun _ => rfl) (by decide) (fun _ => trivial) (fun _ => rfl)

instance : LawfulMessage .little LogoutRequest :=
  lawful_of_header { toFun := LogoutRequest.header, invFun := fun header => { header } }
    (fun _ => rfl) (fun _ => rfl) (fun _ => rfl) (fun _ => trivial) (fun _ => rfl)

instance : LawfulMessage .little ClientHeartbeat :=
  lawful_of_header { toFun := ClientHeartbeat.header, invFun := fun header => { header } }
    (fun _ => rfl) (fun _ => rfl) (fun _ => rfl) (fun _ => trivial) (fun _ => rfl)

/-! ## Cancellations -/

namespace CancelOrder

/-- What stands behind the preamble of a cancellation. -/
def body (r : CancelOrder) : Bytes :=
  Field.bytes .little r.origClOrdId ++ (Field.bytes .little r.presence ++
    if r.presence.contains clearingFirmIndex then Field.bytes .little r.clearingFirm else [])

/-- The clearing firm is all that the members of the set add up to. -/
theorem encodedLen_eq_ite (r : CancelOrder) : r.encodedLen =
    minSize + if r.presence.contains clearingFirmIndex then 4 else 0 := by
  have hsize : ∀ i, 1 ≤ i → optionalSize i = 0 := by
    rintro (_ | i) hi
    · cases hi
    · rfl
  rw [encodedLen, r.presence.sum_toList (by decide) hsize]
  rfl

theorem encodedLen_eq (r : CancelOrder) : r.encodedLen = preambleSize + r.body.length := by
  rw [encodedLen_eq_ite]
  unfold body
  split
  · simp only [List.length_append, Field.length_bytes]
    rfl
  · simp only [List.length_append, Field.length_bytes]
    rfl

theorem encodedLen_le (r : CancelOrder) : r.encodedLen ≤ 35 := by
  rw [encodedLen_eq_ite, minSize, preambleSize]
  split <;> omega

theorem layout?_eq (r : CancelOrder) :
    layout? r = if r.presence.Within defined then
      some (r.header.layout typeByte (UInt16.ofNat (r.encodedLen - markerSize)) ++ r.body)
    else none := by
  have hmin : preambleSize ≤ r.encodedLen := by
    rw [r.encodedLen_eq]
    exact Nat.le_add_right _ _
  have hmax : r.encodedLen < UInt16.size := Nat.lt_of_le_of_lt r.encodedLen_le (by decide)
  change r.fields?.map List.flatten = _
  rw [fields?, guard_bind, apply_ite (Option.map List.flatten)]
  simp only [List.append_assoc]
  refine congrArg (fun x => ite _ x none) ?_
  refine (r.header.flatten_fields? typeByte hmin hmax _).trans ?_
  unfold body
  split <;> simp

/-- A clearing firm that is not shown does not count. -/
theorem canonical_eq (r : CancelOrder) :
    canonical r = { r with
      clearingFirm :=
        if r.presence.contains clearingFirmIndex then r.clearingFirm else default } := by
  change (if r.presence.contains clearingFirmIndex then r
    else { r with clearingFirm := .zero 4 }) = _
  split <;> rfl

theorem body_canonical (r : CancelOrder) : (canonical r).body = r.body := by
  rw [canonical_eq]
  simp only [body, bytes_shown]

instance : LawfulMessage .little CancelOrder := by
  refine lawful_of_framed CancelOrder.header body
    (fun prior => show refill prior = framed typeByte _ from rfl)
    ?layout ?rules ?length ?canonical ?reads ?frugal
  case layout =>
    intro r h
    exact (layout?_eq r).trans (if_pos h)
  case rules =>
    intro r h
    by_cases hwithin : r.presence.Within defined
    · exact hwithin
    · rw [layout?_eq, if_neg hwithin] at h
      cases h
  case length =>
    intro r _
    exact ⟨r.encodedLen_eq, Nat.lt_of_le_of_lt r.encodedLen_le (by decide)⟩
  case canonical =>
    intro r
    constructor
    · rw [layout?_eq, body_canonical, layout?_eq, canonical_eq]
      rfl
    · simp only [canonical_eq, shown_shown]
  case reads =>
    rintro prior ⟨header, origClOrdId, presence, clearingFirm⟩ h chunk
    simp only [reads_field_bind, reads_fieldIf_bind, reads_require_bind, reads_pure, canonical_eq,
      CancelOrder.mk.injEq, shown_iff, true_and, body]
    constructor
    · rintro ⟨_, _, rfl, _, _, rfl, hwithin, _, _, rfl, hblank, rfl, rfl, rfl, rfl, rfl⟩
      exact ⟨rfl, hwithin, hblank, by rw [List.append_nil]⟩
    · rintro ⟨rfl, hwithin, hblank, rfl⟩
      exact ⟨_, _, rfl, _, _, rfl, hwithin, _, _, (List.append_nil _).symm, hblank, rfl, rfl, rfl,
        rfl, rfl⟩
  case frugal =>
    intro prior h
    simp [-bind_pure_comp]

end CancelOrder

end OrderEntry

end TradeWire
