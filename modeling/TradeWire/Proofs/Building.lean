import TradeWire.Proofs.Capacity
/-!
# Building — records put together field by field

A record with optional fields is put together by setters, each of which
sets a value and the index that shows it, and it can be read over by a
message at any time, which sets and clears both. Whatever the order, no
index is set that the message has no field for, and no value stands behind
an index that is clear. One edit keeps this (`of_edited`), so it is true of
every record that is built.

Such a record can be sent, and comes back as it is. A cross has two
reservations. Its legs are a list of any length, counted on the wire by
one byte. And their accounts are values of their own, which a leg can
have while the cross does not show them.
-/

namespace TradeWire

/-! ## Indices that are set -/

namespace Presence

variable {w : Width} {p : Presence w} {indices : List Nat} {i j : Nat}

/-- Every member is one of these indices. -/
def Among (p : Presence w) (indices : List Nat) : Prop :=
  ∀ i, p.contains i = true → i ∈ indices

theorem among_empty (indices : List Nat) : (empty : Presence w).Among indices := by
  intro i hi
  rw [contains_empty] at hi
  cases hi

/-- An index that is one of them can be added. -/
theorem Among.insert (h : p.Among indices) (hi : i ∈ indices) : (p.insert i).Among indices := by
  intro j hj
  rw [contains_insert, Bool.or_eq_true, decide_eq_true_eq] at hj
  rcases hj with ⟨rfl, -⟩ | hj
  · exact hi
  · exact h j hj

/-- **Adding an index keeps what is absent zero:** a value other than the one
behind that index stays as it was, and that one is not absent. -/
theorem zero_of_absent_insert {α : Type} {zero value next : α} (hi : i < w.bits)
    (h : p.contains i = false → value = zero) (hnext : j = i ∨ next = value) :
    (p.insert j).contains i = false → next = zero := by
  intro habsent
  rw [contains_insert, Bool.or_eq_false_iff, decide_eq_false_iff_not] at habsent
  obtain ⟨hother, hbefore⟩ := habsent
  rcases hnext with rfl | rfl
  · exact absurd ⟨rfl, hi⟩ hother
  · exact h hbefore

end Presence

namespace Message

variable {order : ByteOrder} {M Change : Type} [Message order M]

/-! ## Edits -/

/-- **An edit of a record:** a change made to it, or a message read over
it. -/
inductive Edit (Change : Type) where
  | change (c : Change)
  | decodeInto (bytes : Bytes)

/-- The record after an edit. A message that is read over it has to be
there. -/
def edited (apply : M → Change → M) (record : M) : Edit Change → Except Fault M
  | .change c => .ok (apply record c)
  | .decodeInto bytes => (decodeInto record bytes).map Prod.fst

/-- **The record that is built by edits of a blank one,** one after
another. -/
def built (apply : M → Change → M) (edits : List (Edit Change)) : Except Fault M :=
  edits.foldlM (edited apply) blank

/-- **A record is sent, and read as another:** the same bytes are written
into every buffer that has the room, and they decode to the other, whatever
follows them. -/
def SentAs (record shown : M) : Prop :=
  ∃ written : Bytes, written.length = encodedLen record ∧
    (∀ buffer : Bytes, encodedLen record ≤ buffer.length →
      encode record buffer =
        .ok (encodedLen record, written ++ buffer.drop (encodedLen record))) ∧
    ∀ tail : Bytes, decode (written ++ tail) = .ok (shown, encodedLen record)

variable [LawfulMessage order M] {apply : M → Change → M} {P : M → Prop}

/-- **One edit** keeps what every change keeps, where it is true of all that
comes out of a decoder. -/
theorem of_edited (hchange : ∀ record c, P record → P (apply record c))
    (hdecoded : ∀ record : M, canonical record = record → Message.Encodable record → P record)
    {record next : M} {edit : Edit Change} (hrecord : P record)
    (h : edited apply record edit = .ok next) : P next := by
  cases edit with
  | change c =>
    obtain rfl := Except.ok.inj h
    exact hchange record c hrecord
  | decodeInto bytes =>
    cases hdecode : decodeInto record bytes with
    | error fault =>
      rw [edited, hdecode] at h
      cases h
    | ok found =>
      rw [edited, hdecode] at h
      obtain rfl := Except.ok.inj h
      obtain ⟨-, hcanonical, hlayout⟩ := (decodeInto_eq_ok_iff record _ bytes found.2).1 hdecode
      exact hdecoded _ hcanonical (encodable_of_layout hlayout)

/-- **And so it is true of every record that is built,** where it is true of
the blank one. -/
theorem of_built (hblank : P (blank : M)) (hchange : ∀ record c, P record → P (apply record c))
    (hdecoded : ∀ record : M, canonical record = record → Message.Encodable record → P record)
    {edits : List (Edit Change)} {record : M} (h : built apply edits = .ok record) : P record := by
  have hrun : ∀ (edits : List (Edit Change)) (first : M), P first →
      edits.foldlM (edited apply) first = .ok record → P record := by
    intro edits
    induction edits with
    | nil =>
      intro first hfirst h
      obtain rfl := Except.ok.inj h
      exact hfirst
    | cons edit edits ih =>
      intro first hfirst h
      rw [List.foldlM_cons] at h
      cases hnext : edited apply first edit with
      | error fault =>
        rw [hnext] at h
        cases h
      | ok next =>
        rw [hnext] at h
        exact ih next (of_edited hchange hdecoded hfirst hnext) h
  exact hrun edits blank hblank h

/-- A record that keeps the rules is sent, and read as what it shows. -/
theorem sentAs_canonical {record : M} (h : Message.Encodable record) :
    SentAs record (canonical record) := by
  obtain ⟨written, hlayout, hlen⟩ := exists_layout h
  refine ⟨written, hlen, fun buffer hroom => encode_of_layout hlayout hroom, fun tail => ?_⟩
  refine (decodeInto_eq_ok_iff _ _ _ _).2 ⟨?_, LawfulMessage.canonical_canonical record, ?_⟩
  · rw [List.length_append]
    omega
  · rw [← hlen, List.take_left, LawfulMessage.layout?_canonical, hlayout]

end Message

namespace OrderEntry

open Decoder Message

/-! ## Cancellations -/

namespace CancelOrder

/-- **The changes of a cancellation.** -/
inductive Change where
  | setClearingFirm (value : Octets 4)

/-- The record with a change. -/
def change (r : CancelOrder) : Change → CancelOrder
  | .setClearingFirm value => r.setClearingFirm value

/-- **A clean cancellation:** it shows nothing that is not defined, and what
it does not show is zero. -/
structure Clean (r : CancelOrder) : Prop where
  among : r.presence.Among [clearingFirmIndex]
  clearingFirm : r.presence.contains clearingFirmIndex = false → r.clearingFirm = .zero 4

variable {r : CancelOrder}

theorem clean_change (h : r.Clean) (c : Change) : (r.change c).Clean := by
  obtain ⟨value⟩ := c
  exact ⟨h.among.insert (List.mem_singleton_self _),
    Presence.zero_of_absent_insert (by decide) h.clearingFirm (.inl rfl)⟩

theorem clean_of_canonical (hcanonical : canonical r = r) (h : Message.Encodable r) :
    r.Clean where
  among := (Presence.within_ofList_iff _ _).1 h
  clearingFirm := by
    rw [canonical_eq] at hcanonical
    exact (shown_iff _ _).1 (congrArg CancelOrder.clearingFirm hcanonical)

theorem clean_of_built {edits : List (Edit Change)} (h : built change edits = .ok r) : r.Clean := by
  have hblank : ({} : CancelOrder).Clean := ⟨Presence.among_empty _, fun _ => rfl⟩
  exact of_built hblank (fun _ c hrecord => clean_change hrecord c)
    (fun _ => clean_of_canonical) h

/-- A clean cancellation keeps the rules, -/
theorem Clean.encodable (h : r.Clean) : Message.Encodable r :=
  (Presence.within_ofList_iff _ _).2 h.among

/-- and shows all of itself. -/
theorem Clean.canonical_eq_self (h : r.Clean) : canonical r = r := by
  have hfirm := (shown_iff _ _).2 h.clearingFirm
  rw [canonical_eq, hfirm]

/-- So it is sent, and comes back as it is. -/
theorem Clean.sentAs (h : r.Clean) : SentAs r r := by
  have hsent := sentAs_canonical h.encodable
  rwa [h.canonical_eq_self] at hsent

end CancelOrder

/-! ## Crosses -/

/-- The legs of a cross have their accounts shown all together, or not. -/
theorem CrossGroup.map_canonical (presence : Presence .w16) (groups : List CrossGroup) :
    groups.map (canonical presence) =
      if presence.contains accountIndex then groups
      else groups.map fun g => { g with account := .zero 16 } := by
  split
  · next hshown =>
    have hall : ∀ g ∈ groups, canonical presence g = g := fun g _ => if_pos hshown
    exact (List.map_congr_left hall).trans (List.map_id groups)
  · next hshown => exact List.map_congr_left fun g _ => if_neg hshown

namespace NewOrderCross

/-- **The changes of a cross.** -/
inductive Change where
  | setSymbol (value : Octets 8)
  | setCapacity (value : UInt8)
  | setClearingFirm (value : Octets 4)
  | includeAccounts
  | appendGroups (groups : List CrossGroup)
  | truncateGroups (n : Nat)

/-- The record with a change. -/
def change (r : NewOrderCross) : Change → NewOrderCross
  | .setSymbol value => r.setSymbol value
  | .setCapacity value => r.setCapacity value
  | .setClearingFirm value => r.setClearingFirm value
  | .includeAccounts => r.includeAccounts
  | .appendGroups groups => r.appendGroups groups
  | .truncateGroups n => r.truncateGroups n

/-- **A clean cross:** it shows nothing that is not defined, and what it does
not show is zero. This is not said of the accounts of its legs. -/
structure Clean (r : NewOrderCross) : Prop where
  among : r.presence.Among
    [symbolIndex, capacityIndex, clearingFirmIndex, CrossGroup.accountIndex]
  symbol : r.presence.contains symbolIndex = false → r.symbol = .zero 8
  capacity : r.presence.contains capacityIndex = false → r.capacity = 0
  clearingFirm : r.presence.contains clearingFirmIndex = false → r.clearingFirm = .zero 4

/-- **The record as it comes back:** the accounts of its legs are zero unless
it shows them. -/
def returned (r : NewOrderCross) : NewOrderCross :=
  { r with groups :=
      if r.presence.contains CrossGroup.accountIndex then r.groups
      else r.groups.map fun g => { g with account := .zero 16 } }

variable {r : NewOrderCross}

/-- **A setter** adds an index that is defined, and sets no value but the one
behind it. -/
theorem Clean.insert {i : Nat} {next : NewOrderCross} (h : r.Clean)
    (hi : i ∈ [symbolIndex, capacityIndex, clearingFirmIndex, CrossGroup.accountIndex])
    (hpresence : next.presence = r.presence.insert i)
    (hsymbol : i = symbolIndex ∨ next.symbol = r.symbol)
    (hcapacity : i = capacityIndex ∨ next.capacity = r.capacity)
    (hfirm : i = clearingFirmIndex ∨ next.clearingFirm = r.clearingFirm) : next.Clean := by
  constructor <;> rw [hpresence]
  · exact h.among.insert hi
  · exact Presence.zero_of_absent_insert (by decide) h.symbol hsymbol
  · exact Presence.zero_of_absent_insert (by decide) h.capacity hcapacity
  · exact Presence.zero_of_absent_insert (by decide) h.clearingFirm hfirm

theorem clean_change (h : r.Clean) (c : Change) : (r.change c).Clean := by
  cases c with
  | setSymbol value => exact h.insert (by decide) rfl (.inl rfl) (.inr rfl) (.inr rfl)
  | setCapacity value => exact h.insert (by decide) rfl (.inr rfl) (.inl rfl) (.inr rfl)
  | setClearingFirm value => exact h.insert (by decide) rfl (.inr rfl) (.inr rfl) (.inl rfl)
  | includeAccounts => exact h.insert (by decide) rfl (.inr rfl) (.inr rfl) (.inr rfl)
  | appendGroups groups => exact ⟨h.among, h.symbol, h.capacity, h.clearingFirm⟩
  | truncateGroups n => exact ⟨h.among, h.symbol, h.capacity, h.clearingFirm⟩

theorem clean_of_canonical (hcanonical : canonical r = r) (h : Message.Encodable r) :
    r.Clean := by
  obtain ⟨hblank, -⟩ := (canonical_eq_self_iff r).1 hcanonical
  exact ⟨(Presence.within_ofList_iff _ _).1 h.1, hblank.symbol, hblank.capacity,
    hblank.clearingFirm⟩

theorem clean_of_built {edits : List (Edit Change)} (h : built change edits = .ok r) : r.Clean := by
  have hblank : ({} : NewOrderCross).Clean :=
    ⟨Presence.among_empty _, fun _ => rfl, fun _ => rfl, fun _ => rfl⟩
  exact of_built hblank (fun _ c hrecord => clean_change hrecord c)
    (fun _ => clean_of_canonical) h

/-- A clean cross keeps the rules where its legs can be counted, -/
theorem Clean.encodable_iff (h : r.Clean) : Message.Encodable r ↔ r.groups.length ≤ 255 :=
  and_iff_right ((Presence.within_ofList_iff _ _).2 h.among)

/-- and shows all of itself but accounts. -/
theorem Clean.canonical_eq_returned (h : r.Clean) : canonical r = r.returned := by
  have hsymbol := (shown_iff _ _).2 h.symbol
  have hcapacity := (shown_iff _ _).2 h.capacity
  have hfirm := (shown_iff _ _).2 h.clearingFirm
  rw [canonical_eq, hsymbol, hcapacity, hfirm, CrossGroup.map_canonical, returned]

/-- So it is sent where its legs can be counted, and comes back but for
them. -/
theorem Clean.sentAs (h : r.Clean) (hcount : r.groups.length ≤ 255) : SentAs r r.returned := by
  rw [← h.canonical_eq_returned]
  exact sentAs_canonical (h.encodable_iff.2 hcount)

end NewOrderCross

/-! ## What is built can be sent -/

/-- **A record that is built can be sent, and comes back,** whatever its
setters were called with and whatever messages were read over it in
between.

A cross shows no undefined field and nothing stands behind one that is
absent. In a buffer with the room, encoding it fails where it has more than
255 legs, as a bad value, and nowhere else. Otherwise it decodes to itself,
but that the accounts of its legs come back zero where it does not show
them. A cancellation is always written, and decodes to itself. -/
theorem built_round_trips :
    (∀ (edits : List (Edit NewOrderCross.Change)) (r : NewOrderCross),
      built NewOrderCross.change edits = .ok r →
      r.Clean ∧
      (∀ buffer : Bytes, encodedLen r ≤ buffer.length →
        ∀ fault, encode r buffer = .error fault ↔ fault = .badValue ∧ 255 < r.groups.length) ∧
      (r.groups.length ≤ 255 → SentAs r r.returned)) ∧
    ∀ (edits : List (Edit CancelOrder.Change)) (r : CancelOrder),
      built CancelOrder.change edits = .ok r → r.Clean ∧ SentAs r r := by
  constructor
  · intro edits r h
    have hclean := NewOrderCross.clean_of_built h
    refine ⟨hclean, fun buffer hroom fault => ?_, hclean.sentAs⟩
    have hroom' : ¬ buffer.length < encodedLen r := Nat.not_lt.2 hroom
    rw [encode_eq_error_iff, hclean.encodable_iff]
    simp [hroom']
  · intro edits r h
    have hclean := CancelOrder.clean_of_built h
    exact ⟨hclean, hclean.sentAs⟩

/-- A cross that shows a capacity and nothing else. -/
def capacityCross : Bytes := [0xBA, 0xBA, 46, 0, 0x41] ++ List.replicate 39 0 ++ [2, 0, 80, 0]

/-- A leg with an account. -/
def accountLeg : CrossGroup := { side := 49, account := ⟨List.replicate 16 75, rfl⟩ }

/-- A symbol that is set, and cleared by a message read over it; then more
legs than can be counted. -/
def overfilling : List (Edit NewOrderCross.Change) :=
  [.change (.setSymbol ⟨List.replicate 8 65, rfl⟩), .decodeInto capacityCross,
    .change (.appendGroups (List.replicate 300 accountLeg))]

/-- A clearing firm that is set behind a message. -/
def firmSet : Octets 4 := ⟨[71, 72, 73, 74], rfl⟩

theorem built_round_trips_overfilling :
    (∃ r, built NewOrderCross.change overfilling = .ok r ∧
      encode r (List.replicate (encodedLen r) 0) = .error .badValue) ∧
    (∃ r, built NewOrderCross.change (overfilling ++ [.change (.truncateGroups 2)]) = .ok r ∧
      r.symbol = .zero 8 ∧ r.capacity = 80 ∧ r.groups = [accountLeg, accountLeg] ∧
      SentAs r { r with groups := [{ side := 49 }, { side := 49 }] }) ∧
    (∃ r, built CancelOrder.change
        [.change (.setClearingFirm (.zero 4)), .decodeInto Family.shownFirmBytes] = .ok r ∧
      r.clearingFirm.toList = [66, 67, 68, 69] ∧ SentAs r r) ∧
    (∃ r, built NewOrderCross.change (overfilling ++ [.change (.truncateGroups 1),
        .change (.setClearingFirm firmSet), .change .includeAccounts]) = .ok r ∧
      r.capacity = 80 ∧ r.clearingFirm = firmSet ∧ r.groups = [accountLeg] ∧ SentAs r r) ∧
    ∃ r, built CancelOrder.change
        [.decodeInto Family.shownFirmBytes, .change (.setClearingFirm firmSet)] = .ok r ∧
      r.clearingFirm = firmSet ∧ SentAs r r := by
  let cross : NewOrderCross := { presence := .ofList [1], capacity := 80 }
  obtain ⟨hcross, hcancel⟩ := built_round_trips
  refine ⟨?overfull, ?truncated, ?cancel, ?crossSet, ?cancelSet⟩
  case overfull =>
    let r := cross.appendGroups (List.replicate 300 accountLeg)
    have hbuilt : built NewOrderCross.change overfilling = .ok r := rfl
    have hcount : r.groups.length = 300 := List.length_replicate
    have hroom : encodedLen r ≤ (List.replicate (encodedLen r) (0 : UInt8)).length :=
      Nat.le_of_eq List.length_replicate.symm
    obtain ⟨-, hfault, -⟩ := hcross overfilling r hbuilt
    exact ⟨r, hbuilt, (hfault _ hroom .badValue).2 ⟨rfl, by omega⟩⟩
  case truncated =>
    let r := { cross with groups := [accountLeg, accountLeg] }
    have hbuilt : built NewOrderCross.change (overfilling ++ [.change (.truncateGroups 2)]) =
        .ok r := rfl
    have hreturned : r.returned = { r with groups := [{ side := 49 }, { side := 49 }] } := by
      decide
    obtain ⟨-, -, hsent⟩ := hcross _ r hbuilt
    rw [hreturned] at hsent
    exact ⟨r, hbuilt, rfl, rfl, rfl, hsent (by decide)⟩
  case cancel =>
    have hbuilt : built CancelOrder.change
        [.change (.setClearingFirm (.zero 4)), .decodeInto Family.shownFirmBytes] =
        .ok Family.shownFirm := rfl
    obtain ⟨-, hsent⟩ := hcancel _ Family.shownFirm hbuilt
    exact ⟨Family.shownFirm, hbuilt, rfl, hsent⟩
  case crossSet =>
    let r := { cross with
      presence := .ofList [1, 2, 9], clearingFirm := firmSet, groups := [accountLeg] }
    have hbuilt : built NewOrderCross.change (overfilling ++ [.change (.truncateGroups 1),
        .change (.setClearingFirm firmSet), .change .includeAccounts]) = .ok r := rfl
    have hreturned : r.returned = r := by decide
    obtain ⟨-, -, hsent⟩ := hcross _ r hbuilt
    rw [hreturned] at hsent
    exact ⟨r, hbuilt, rfl, rfl, rfl, hsent (by decide)⟩
  case cancelSet =>
    let r := Family.shownFirm.setClearingFirm firmSet
    have hbuilt : built CancelOrder.change
        [.decodeInto Family.shownFirmBytes, .change (.setClearingFirm firmSet)] = .ok r := rfl
    obtain ⟨-, hsent⟩ := hcancel _ r hbuilt
    exact ⟨r, hbuilt, rfl, hsent⟩

end OrderEntry

end TradeWire
