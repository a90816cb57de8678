import TradeWire.Proofs.Building
import TradeWire.Proofs.Reuse
/-!
# Setters — what a record shows is what was set last

A setter puts a value at its index, in the place of what was shown there,
and leaves every other index and the rest of the record as they were: one
equation over all indices (`shown?_change`). So after any run of changes
the value shown at an index is the last one set there, or the one the run
began with (`shown?_foldl`).

A message read over a record sets and clears every index at once, and
nothing of the record is left. What is built by any edits therefore shows
the values set since the last message, and elsewhere what that message
shows (`shown?_of_built`).
-/

namespace TradeWire

namespace Presence

variable {w : Width} {p : Presence w} {i : Nat}

/-- The value at an index, given one for each, where the index is a
member. -/
def shown? (p : Presence w) (values : Nat → Bytes) (i : Nat) : Option Bytes :=
  if p.contains i then some (values i) else none

/-- **Adding an index with a value shows that value there,** and elsewhere
what was shown before. -/
theorem shown?_insert {values next : Nat → Bytes} {value : Bytes} (hi : i < w.bits)
    (hnext : ∀ j, next j = if j = i then value else values j) (j : Nat) :
    (p.insert i).shown? next j = (if j = i then some value else none).or (p.shown? values j) := by
  unfold shown?
  rw [contains_insert, hnext]
  by_cases h : j = i
  · subst h
    simp [hi]
  · simp [h]

end Presence

/-! ## A run of changes -/

namespace Message

section Changes

variable {M Change : Type} {apply : M → Change → M}

/-- The value that a change sets at an index, given which index it sets if
any, and to what. -/
def setAt (sets : Change → Option (Nat × Bytes)) (i : Nat) (c : Change) : Option Bytes :=
  (sets c).bind fun (j, value) => if i = j then some value else none

/-- **The last value set at an index is the one shown,** if one was set at
all. -/
theorem shown?_foldl {sets : Change → Option (Nat × Bytes)} {shown? : M → Nat → Option Bytes}
    (hchange : ∀ record c i, shown? (apply record c) i = (setAt sets i c).or (shown? record i))
    (changes : List Change) (record : M) (i : Nat) :
    shown? (changes.foldl apply record) i =
      (changes.filterMap (setAt sets i)).getLast?.or (shown? record i) := by
  induction changes generalizing record with
  | nil => rfl
  | cons c changes ih =>
    rw [List.foldl_cons, ih, hchange]
    cases hset : setAt sets i c with
    | none =>
      rw [List.filterMap_cons_none hset]
      rfl
    | some value =>
      rw [List.filterMap_cons_some hset, List.getLast?_cons]
      cases (changes.filterMap (setAt sets i)).getLast? <;> rfl

/-- What no change touches is as it was. -/
theorem untouched_foldl {α : Type} {rest : M → α}
    (hchange : ∀ record c, rest (apply record c) = rest record) (changes : List Change)
    (record : M) : rest (changes.foldl apply record) = rest record := by
  induction changes generalizing record with
  | nil => rfl
  | cons c changes ih => rw [List.foldl_cons, ih, hchange]

end Changes

/-- A run of changes does not fail. -/
theorem foldlM_edited {order : ByteOrder} {M Change : Type} [Message order M]
    (apply : M → Change → M) (changes : List Change) (record : M) :
    (changes.map Edit.change).foldlM (edited apply) record = .ok (changes.foldl apply record) := by
  induction changes generalizing record with
  | nil => rfl
  | cons c changes ih => exact ih (apply record c)

/-- **A message that is read over a record is a new start:** what is built is
what the changes behind it make of that message, whatever the edits in front
of it were. -/
theorem eq_foldl_of_built {f : Family} {k : f.Kind} {Change : Type}
    {apply : f.Record k → Change → f.Record k} {edits : List (Edit Change)} {bytes : Bytes}
    {changes : List Change} {record : f.Record k}
    (h : built apply (edits ++ .decodeInto bytes :: changes.map .change) = .ok record) :
    ∃ decoded n, f.decode k bytes = .ok (decoded, n) ∧ record = changes.foldl apply decoded := by
  rw [built, List.foldlM_append] at h
  cases hbefore : edits.foldlM (edited apply) (blank : f.Record k) with
  | error fault =>
    rw [hbefore] at h
    cases h
  | ok before =>
    rw [hbefore] at h
    replace h : ((edited apply before (.decodeInto bytes)).bind fun record =>
      (changes.map Edit.change).foldlM (edited apply) record) = .ok record := h
    rw [edited, Family.decodeInto_over] at h
    cases hdecode : f.decode k bytes with
    | error fault =>
      rw [hdecode] at h
      cases h
    | ok found =>
      obtain ⟨decoded, n⟩ := found
      rw [hdecode] at h
      replace h := (foldlM_edited apply changes decoded).symm.trans h
      exact ⟨decoded, n, rfl, (Except.ok.inj h).symm⟩

end Message

namespace OrderEntry

open Message

/-! ## Cancellations -/

namespace CancelOrder

/-- The index a change sets, and the bytes of its value. -/
def Change.sets : Change → Option (Nat × Bytes)
  | .setClearingFirm value => some (clearingFirmIndex, Field.bytes .little value)

/-- The bytes a record has for an index. -/
def valueAt (r : CancelOrder) : Nat → Bytes
  | 0 => Field.bytes .little r.clearingFirm
  | _ => []

/-- **What a record shows at an index,** if it shows it. -/
def shown? (r : CancelOrder) : Nat → Option Bytes := r.presence.shown? r.valueAt

/-- What no change touches. -/
def untouched (r : CancelOrder) : CancelOrder :=
  { r with presence := .empty, clearingFirm := .zero 4 }

variable {r : CancelOrder}

/-- **A setter sets its value and its index,** -/
theorem shown?_change (r : CancelOrder) (c : Change) (i : Nat) :
    (r.change c).shown? i = (setAt Change.sets i c).or (r.shown? i) := by
  obtain ⟨value⟩ := c
  refine Presence.shown?_insert (by decide) (fun j => ?_) i
  cases j <;> rfl

/-- and nothing else. -/
theorem untouched_change (r : CancelOrder) (c : Change) :
    (r.change c).untouched = r.untouched := by
  obtain ⟨value⟩ := c
  rfl

/-- **A cancellation shows what was set last,** by a setter or by the message
the setters began from, whatever was done before that. So it is sent. -/
theorem shown?_of_built {edits : List (Edit Change)} {bytes : Bytes} {changes : List Change}
    (h : built change (edits ++ .decodeInto bytes :: changes.map .change) = .ok r) :
    ∃ (decoded : CancelOrder) (n : Nat), Message.decode bytes = .ok (decoded, n) ∧
      (∀ i, r.shown? i =
        (changes.filterMap (setAt Change.sets i)).getLast?.or (decoded.shown? i)) ∧
      r.untouched = decoded.untouched ∧ SentAs r r := by
  have hsent := (clean_of_built h).sentAs
  obtain ⟨decoded, n, hdecode, rfl⟩ :=
    eq_foldl_of_built (f := .orderEntry) (k := .cancelOrder) h
  exact ⟨decoded, n, hdecode, shown?_foldl shown?_change changes decoded,
    untouched_foldl untouched_change changes decoded, hsent⟩

end CancelOrder

/-! ## Crosses -/

namespace NewOrderCross

/-- The index a change sets, if any, and the bytes of its value. The
accounts have no value of their own: it is the legs that hold them. -/
def Change.sets : Change → Option (Nat × Bytes)
  | .setSymbol value => some (symbolIndex, Field.bytes .little value)
  | .setCapacity value => some (capacityIndex, Field.bytes .little value)
  | .setClearingFirm value => some (clearingFirmIndex, Field.bytes .little value)
  | .includeAccounts => some (CrossGroup.accountIndex, [])
  | .appendGroups _ | .truncateGroups _ => none

/-- What a change makes of the legs. -/
def Change.legs (groups : List CrossGroup) : Change → List CrossGroup
  | .appendGroups more => groups ++ more
  | .truncateGroups n => groups.take n
  | .setSymbol _ | .setCapacity _ | .setClearingFirm _ | .includeAccounts => groups

/-- The bytes a record has for an index. -/
def valueAt (r : NewOrderCross) : Nat → Bytes
  | 0 => Field.bytes .little r.symbol
  | 1 => Field.bytes .little r.capacity
  | 2 => Field.bytes .little r.clearingFirm
  | _ => []

/-- **What a record shows at an index,** if it shows it. -/
def shown? (r : NewOrderCross) : Nat → Option Bytes := r.presence.shown? r.valueAt

/-- What no change touches. -/
def untouched (r : NewOrderCross) : NewOrderCross :=
  { r with
    presence := .empty, symbol := .zero 8, capacity := 0, clearingFirm := .zero 4, groups := [] }

variable {r : NewOrderCross}

/-- **A setter sets its value and its index,** a change of the legs sets
none, -/
theorem shown?_change (r : NewOrderCross) (c : Change) (i : Nat) :
    (r.change c).shown? i = (setAt Change.sets i c).or (r.shown? i) := by
  cases c with
  | setSymbol _ | setCapacity _ | setClearingFirm _ =>
    refine Presence.shown?_insert (by decide) (fun j => ?_) i
    rcases j with _ | _ | _ | j <;> rfl
  | includeAccounts =>
    refine Presence.shown?_insert (by decide) (fun j => ?_) i
    -- the accounts show no bytes here, before and after
    split
    · next h =>
      rw [h]
      rfl
    · rfl
  | appendGroups _ | truncateGroups _ => rfl

/-- the legs become what it makes of them, -/
theorem groups_change (r : NewOrderCross) (c : Change) :
    (r.change c).groups = c.legs r.groups := by
  cases c <;> rfl

/-- and it touches nothing else. -/
theorem untouched_change (r : NewOrderCross) (c : Change) :
    (r.change c).untouched = r.untouched := by
  cases c <;> rfl

/-- **A cross shows what was set last,** by a setter or by the message the
setters began from, whatever was done before that. The legs are those of the
message and what the changes make of them. So it is sent, and the record that
comes back shows the same. -/
theorem shown?_of_built {edits : List (Edit Change)} {bytes : Bytes} {changes : List Change}
    (h : built change (edits ++ .decodeInto bytes :: changes.map .change) = .ok r) :
    ∃ (decoded : NewOrderCross) (n : Nat), Message.decode bytes = .ok (decoded, n) ∧
      (∀ i, r.shown? i =
        (changes.filterMap (setAt Change.sets i)).getLast?.or (decoded.shown? i)) ∧
      r.groups = changes.foldl Change.legs decoded.groups ∧
      r.untouched = decoded.untouched ∧
      (r.groups.length ≤ 255 → SentAs r r.returned) ∧ r.returned.shown? = r.shown? := by
  have hsent := (clean_of_built h).sentAs
  obtain ⟨decoded, n, hdecode, rfl⟩ :=
    eq_foldl_of_built (f := .orderEntry) (k := .newOrderCross) h
  have hlegs : changes.foldl Change.legs decoded.groups = (changes.foldl change decoded).groups :=
    List.foldl_hom NewOrderCross.groups fun r c => (groups_change r c).symm
  exact ⟨decoded, n, hdecode, shown?_foldl shown?_change changes decoded, hlegs.symm,
    untouched_foldl untouched_change changes decoded, hsent, rfl⟩

end NewOrderCross

end OrderEntry

end TradeWire
