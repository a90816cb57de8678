import TradeWire.Proofs.Conservation
import TradeWire.Proofs.CrossPositions
/-!
# Widths — where a message can be cut

A message is a row of fields, and writing stops in front of the first that
does not fit. So with too little room a part of a message is left behind,
and the part ends between two fields. Where, the widths of the fields say:
one gets over as many of them as fit (`Furthest`).

The widths are those of the fields themselves and not of the steps they
come in: the preamble is five fields, a leg three or four. They hang on
the record by what it shows and how many legs it has, and on nothing
else (`Family.widths`).
-/

namespace TradeWire

-- Sums start from the zero of `Nat` itself, whatever algebra is in scope.
attribute [local instance (high)] Zero.ofOfNat0

/-! ## How far one gets -/

/-- **How far one gets over fields of these widths** in so much room: to the
largest sum of a leading run of them that is within it. -/
structure Furthest (widths : List Nat) (room n : Nat) : Prop where
  leads : ∃ i, n = (widths.take i).sum
  within : n ≤ room
  largest : ∀ i, (widths.take i).sum ≤ room → (widths.take i).sum ≤ n

section Furthest

variable {width room n : Nat} {widths : List Nat}

/-- Over no fields one gets nowhere. -/
theorem furthest_nil (room : Nat) : Furthest [] room 0 where
  leads := ⟨0, rfl⟩
  within := Nat.zero_le room
  largest i _ := by
    rw [List.take_nil]
    exact Nat.le_refl 0

/-- Nor where the first does not fit. -/
theorem furthest_cons_of_lt (hlacks : room < width) (widths : List Nat) :
    Furthest (width :: widths) room 0 where
  leads := ⟨0, rfl⟩
  within := Nat.zero_le room
  largest i hfits := by
    cases i with
    | zero => exact Nat.le_refl 0
    | succ i =>
      rw [List.take_succ_cons, List.sum_cons] at hfits
      omega

/-- Where it fits, one gets over it and on in the room that is left. -/
theorem furthest_cons (hfits : width ≤ room) (h : Furthest widths (room - width) n) :
    Furthest (width :: widths) room (width + n) where
  leads := by
    obtain ⟨i, rfl⟩ := h.leads
    refine ⟨i + 1, ?_⟩
    rw [List.take_succ_cons, List.sum_cons]
  within := by
    have := h.within
    omega
  largest i hsum := by
    cases i with
    | zero => exact Nat.zero_le _
    | succ i =>
      rw [List.take_succ_cons, List.sum_cons] at hsum ⊢
      have := h.largest i (by omega)
      omega

/-- **One gets to the first field that does not fit.** -/
theorem furthest_append {front : List Nat} (hfits : front.sum ≤ room)
    (hlacks : room < front.sum + width) (behind : List Nat) :
    Furthest (front ++ width :: behind) room front.sum := by
  induction front generalizing room with
  | nil =>
    rw [List.sum_nil, Nat.zero_add] at hlacks
    exact furthest_cons_of_lt hlacks behind
  | cons first front ih =>
    rw [List.sum_cons] at hfits hlacks ⊢
    exact furthest_cons (by omega) (ih (by omega) (by omega))

/-- There is one place where one gets. -/
theorem Furthest.unique {m : Nat} (h : Furthest widths room n) (h' : Furthest widths room m) :
    n = m := by
  obtain ⟨i, rfl⟩ := h.leads
  obtain ⟨j, rfl⟩ := h'.leads
  exact Nat.le_antisymm (h'.largest i h.within) (h.largest j h'.within)

/-- Nobody gets further than over all. -/
theorem Furthest.le_sum (h : Furthest widths room n) : n ≤ widths.sum := by
  obtain ⟨i, rfl⟩ := h.leads
  have hsplit : (widths.take i).sum + (widths.drop i).sum = widths.sum := by
    rw [← List.sum_append, List.take_append_drop]
  omega

/-- Where all fit, one gets over all. -/
theorem Furthest.eq_sum (h : Furthest widths room n) (hfits : widths.sum ≤ room) :
    n = widths.sum := by
  have hall := h.largest widths.length
  rw [List.take_length] at hall
  exact Nat.le_antisymm h.le_sum (hall hfits)

end Furthest

/-! ## The widths of an order-entry message -/

namespace OrderEntry

open Message

/-- The widths of the fields of a preamble. -/
def preambleWidths : List Nat := [2, 2, 1, 1, 4]

/-- The widths of the fields of a leg, by the optional fields that its cross
shows. -/
def legWidths (shown : Nat → Bool) : List Nat := [1, 4, 20] ++ if shown 9 then [16] else []

namespace Kind

/-- The widths of the fields that every message of a kind has behind the
preamble: where there is a bitmap, up to it. -/
def fixedWidths : Kind → List Nat
  | loginRequest => [4, 4, 20]
  | logoutRequest | clientHeartbeat => []
  | cancelOrder => [20, 1]
  | newOrderCross => [20, 1, 1, 8, 4, 2]

/-- The widths of the fields behind the bitmap, by the optional fields that
are shown: these, and the count of a cross. -/
def shownWidths (shown : Nat → Bool) : Kind → List Nat
  | loginRequest | logoutRequest | clientHeartbeat => []
  | cancelOrder => if shown 0 then [4] else []
  | newOrderCross => (if shown 0 then [8] else []) ++ ((if shown 1 then [1] else []) ++
      ((if shown 2 then [4] else []) ++ [1]))

/-- **The widths of the fields in front of the legs,** where it is known
which optional fields are shown, and up to the bitmap where it is not. -/
def frontWidths (k : Kind) (shown? : Option (Nat → Bool)) : List Nat :=
  preambleWidths ++ (k.fixedWidths ++ (shown?.map fun shown => k.shownWidths shown).getD [])

/-- **The widths of the fields of a message,** in wire order: those in front
of the legs, and those of so many legs. -/
def widths (k : Kind) (shown? : Option (Nat → Bool)) (legs : Nat) : List Nat :=
  k.frontWidths shown? ++
    (shown?.map fun shown => (List.replicate legs (legWidths shown)).flatten).getD []

/-- The widths of the fields of a record. -/
def widthsOf : (k : Kind) → k.Record → List Nat
  | cancelOrder, (r : CancelOrder) => cancelOrder.widths (some r.presence.contains) 0
  | newOrderCross, (r : NewOrderCross) =>
    newOrderCross.widths (some r.presence.contains) r.groups.length
  | k, _ => k.widths none 0

end Kind

theorem Header.map_length_fields {header : Header} {type : UInt8} {total : Nat}
    {fields : List Bytes} (h : header.fields? type total = some fields) :
    fields.map List.length = preambleWidths := by
  unfold Header.fields? at h
  split at h
  · cases h
    simp [preambleWidths]
  · cases h

theorem LoginRequest.map_length_fields {r : LoginRequest} {fields : List Bytes}
    (h : fields? r = some fields) : fields.map List.length = Kind.loginRequest.widthsOf r := by
  obtain ⟨preamble, hpreamble, hfields⟩ := Option.bind_eq_some_iff.1 h
  cases hfields
  rw [List.map_append, Header.map_length_fields hpreamble]
  simp [Kind.widthsOf, Kind.widths, Kind.frontWidths, Kind.fixedWidths]

/-- A field that may be absent has its width, or none. -/
theorem map_length_ite (shown : Bool) (field : Bytes) :
    (if shown then [field] else []).map List.length = if shown then [field.length] else [] := by
  cases shown <;> rfl

theorem CancelOrder.map_length_fields {r : CancelOrder} {fields : List Bytes}
    (h : r.fields? = some fields) : fields.map List.length = Kind.cancelOrder.widthsOf r := by
  unfold CancelOrder.fields? at h
  rw [guard_bind] at h
  split at h
  · obtain ⟨preamble, hpreamble, hfields⟩ := Option.bind_eq_some_iff.1 h
    cases hfields
    rw [List.map_append, List.map_append, Header.map_length_fields hpreamble, map_length_ite]
    simp [Kind.widthsOf, Kind.widths, Kind.frontWidths, Kind.fixedWidths, Kind.shownWidths,
      clearingFirmIndex, Width.octets]
  · cases h

/-- The legs of a cross, one behind the other. -/
theorem CrossGroup.map_length_flatMap_fields (presence : Presence .w16)
    (groups : List CrossGroup) :
    (groups.flatMap (CrossGroup.fields presence)).map List.length =
      (List.replicate groups.length (legWidths presence.contains)).flatten := by
  induction groups with
  | nil => rfl
  | cons g groups ih =>
    rw [List.flatMap_cons, List.map_append, ih, CrossGroup.map_length_fields, List.length_cons,
      List.replicate_succ, List.flatten_cons]
    rfl

theorem NewOrderCross.map_length_optionalFields (r : NewOrderCross) :
    r.optionalFields.map List.length =
      (if r.presence.contains 0 then [8] else []) ++ (if r.presence.contains 1 then [1] else []) ++
        if r.presence.contains 2 then [4] else [] := by
  unfold optionalFields
  rw [List.map_append, List.map_append, map_length_ite, map_length_ite, map_length_ite]
  simp [symbolIndex, capacityIndex, clearingFirmIndex]

theorem NewOrderCross.map_length_fields {r : NewOrderCross} {fields : List Bytes}
    (h : r.fields? = some fields) : fields.map List.length = Kind.newOrderCross.widthsOf r := by
  unfold NewOrderCross.fields? at h
  rw [guard_bind, guard_bind] at h
  split at h
  · split at h
    · obtain ⟨preamble, hpreamble, hfields⟩ := Option.bind_eq_some_iff.1 h
      cases hfields
      simp only [List.map_append, Header.map_length_fields hpreamble,
        r.map_length_optionalFields, CrossGroup.map_length_flatMap_fields]
      simp [Kind.widthsOf, Kind.widths, Kind.frontWidths, Kind.fixedWidths, Kind.shownWidths,
        Width.octets]
    · cases h
  · cases h

/-- **The fields of a record have its widths.** -/
theorem map_length_fields : (k : Kind) → (record : k.Record) → {fields : List Bytes} →
    fields? record = some fields → fields.map List.length = k.widthsOf record
  | .loginRequest, _, _, h => LoginRequest.map_length_fields h
  | .logoutRequest, (r : LogoutRequest), _, h => by
    have hfields : r.header.fields? LogoutRequest.typeByte LogoutRequest.size = some _ := h
    exact Header.map_length_fields hfields
  | .clientHeartbeat, (r : ClientHeartbeat), _, h => by
    have hfields : r.header.fields? ClientHeartbeat.typeByte ClientHeartbeat.size = some _ := h
    exact Header.map_length_fields hfields
  | .cancelOrder, _, _, h => CancelOrder.map_length_fields h
  | .newOrderCross, _, _, h => NewOrderCross.map_length_fields h

end OrderEntry

/-! ## The widths of a feed message -/

namespace Feed

open Message

/-- The widths of the fields of a feed message, the tag first. -/
def Kind.widths : Kind → List Nat
  | systemEvent => [1, 4, 1]
  | addOrder => [1, 4, 8, 1, 4, 8, 4]
  | orderExecuted => [1, 4, 8, 4, 8]
  | orderCancel => [1, 4, 8, 4]
  | deleteOrder => [1, 4, 8]

theorem Kind.widths_eq (k : Kind) : k.widths = tagSize :: k.row.widths := by
  cases k <;> rfl

theorem map_length_fields (k : Kind) (record : k.Record) {fields : List Bytes}
    (h : fields? record = some fields) : fields.map List.length = k.widths := by
  rw [k.fields?_eq] at h
  rw [← Option.some.inj h, List.map_cons, Field.length_bytes, Row.map_length_fields, k.widths_eq]
  rfl

end Feed

/-! ## Writing without the room -/

/-- **A run of writes that lacks room** gets over as many of its byte strings
as fit. -/
theorem Sink.writeAll_of_lt {order : ByteOrder} {s : Sink order} {fields : List Bytes}
    (hs : s.pos ≤ s.buffer.length) (hlacks : s.remaining < fields.flatten.length) :
    ∃ d, Furthest (fields.map List.length) s.remaining d ∧
      s.writeAll fields = (.error .shortBuffer, {
        buffer := s.buffer.take s.pos ++ fields.flatten.take d ++ s.buffer.drop (s.pos + d)
        pos := s.pos + d }) := by
  have hremaining : s.remaining = s.buffer.length - s.pos := rfl
  rcases writeAll_cases hs fields with
    ⟨hroom, -⟩ | ⟨done, next, later, rfl, hroom, hnext, hwrite⟩
  · omega
  · have hsum : (done.map List.length).sum = done.flatten.length := List.length_flatten.symm
    have htake : (done ++ next :: later).flatten.take done.flatten.length = done.flatten := by
      rw [List.flatten_append, List.take_left]
    refine ⟨done.flatten.length, ?_, ?_⟩
    · rw [List.map_append, List.map_cons, ← hsum]
      exact furthest_append (by omega) (by omega) (later.map List.length)
    · rw [hwrite, htake]
      rfl

namespace Family

open Message LawfulMessage

/-- The widths of the fields of a record. -/
def widths : (f : Family) → (k : f.Kind) → f.Record k → List Nat
  | orderEntry, k, record => OrderEntry.Kind.widthsOf k record
  | feed, k, _ => Feed.Kind.widths k

theorem map_length_fields : (f : Family) → (k : f.Kind) → (record : f.Record k) →
    {fields : List Bytes} → fields? record = some fields →
    fields.map List.length = f.widths k record
  | orderEntry, k, record, _, h => OrderEntry.map_length_fields k record h
  | feed, k, record, _, h => Feed.map_length_fields k record h

/-- **A message without the room is cut between two of its fields.** A
record that breaks a rule is refused as it is, whatever the room. Any other
has fields of the widths that it shows, which are together as long as the
length counted; with less room, as many of them are written as fit, and
stay, over what stood there and over nothing else. -/
theorem write_cut_between_fields (f : Family) (k : f.Kind) (record : f.Record k)
    (s : Sink f.order) (hs : s.pos ≤ s.buffer.length) :
    (f.Breaks k record → write record s = (.error .badValue, s)) ∧
    (¬ f.Breaks k record → ∃ written : Bytes,
      toBytes record = .ok written ∧ written.length = encodedLen record ∧
      (f.widths k record).sum = encodedLen record ∧
      (s.remaining < encodedLen record → ∃ d, Furthest (f.widths k record) s.remaining d ∧
        write record s = (.error .shortBuffer, {
          buffer := s.buffer.take s.pos ++ written.take d ++ s.buffer.drop (s.pos + d)
          pos := s.pos + d }))) := by
  have hrules := f.encodable_iff_not_breaks k record
  constructor
  · intro hbroken
    have hlayout := (layout?_eq_none_iff record).2 fun h => hrules.1 h hbroken
    have hfields : fields? record = none := Option.map_eq_none_iff.1 hlayout
    rw [write, hfields]
  · intro hkept
    obtain ⟨written, hlayout, hlen⟩ := exists_layout (hrules.2 hkept)
    obtain ⟨fields, hfields, rfl⟩ := Option.map_eq_some_iff.1 hlayout
    have hwidths := f.map_length_fields k record hfields
    refine ⟨fields.flatten, (toBytes_eq_ok_iff record _).2 hlayout, hlen, ?_, fun hlacks => ?_⟩
    · rw [← hlen, List.length_flatten, hwidths]
    · rw [← hlen] at hlacks
      rw [write, hfields, ← hwidths]
      exact Sink.writeAll_of_lt hs hlacks

/-- In a hundred bytes behind three others, a cross of 105 is cut between the
quantity of its second leg and the identifier. -/
theorem write_cut_between_fields_partlyShown :
    ¬ orderEntry.Breaks .newOrderCross partlyShown ∧
      (∃ written : Bytes, toBytes partlyShown = .ok written ∧ written.length = 105 ∧
        write partlyShown ⟨List.replicate 103 7, 3⟩ = (.error .shortBuffer, {
          buffer := [7, 7, 7] ++ written.take 85 ++ List.replicate 15 7
          pos := 88 })) ∧
      orderEntry.Breaks .cancelOrder overclaiming ∧
      write overclaiming ⟨[7, 7], 2⟩ = (.error .badValue, ⟨[7, 7], 2⟩) := by
  have hkept : ¬ orderEntry.Breaks .newOrderCross partlyShown := by
    have hencodable : Message.Encodable partlyShown := ⟨by decide, by decide⟩
    exact (encodable_iff_not_breaks orderEntry .newOrderCross partlyShown).1 hencodable
  have hbroken : orderEntry.Breaks .cancelOrder overclaiming := ⟨1, by decide, by decide⟩
  have hwidths : orderEntry.widths .newOrderCross partlyShown =
      [2, 2, 1, 1, 4, 20, 1, 1, 8, 4, 2, 8, 1, 1, 4, 20, 1, 4] ++ 20 :: [] := by decide
  have hfurthest : Furthest (orderEntry.widths .newOrderCross partlyShown) 100 85 := by
    rw [hwidths]
    exact furthest_append (by decide) (by decide) []
  obtain ⟨-, hcut⟩ := write_cut_between_fields orderEntry .newOrderCross partlyShown
    ⟨List.replicate 103 7, 3⟩ (by decide)
  obtain ⟨written, hbytes, hlen, -, hlacks⟩ := hcut hkept
  obtain ⟨d, hd, hwrite⟩ := hlacks (by decide)
  obtain rfl : d = 85 := hd.unique hfurthest
  obtain ⟨hrefused, -⟩ := write_cut_between_fields orderEntry .cancelOrder overclaiming
    ⟨[7, 7], 2⟩ (by decide)
  exact ⟨hkept, ⟨written, hbytes, hlen, hwrite⟩, hbroken, hrefused hbroken⟩

end Family

end TradeWire
