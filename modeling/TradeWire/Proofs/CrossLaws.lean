import Mathlib.Tactic.Simproc.ExistsAndEq
import TradeWire.OrderEntry.NewOrderCross
import TradeWire.Proofs.PreambleLaws
/-!
# Order entry — crosses are lawful

A cross is a preamble, a head up to the count of its legs, and the legs.
What its optional fields and its legs take hangs on its presence set,
which the reader takes from the wire and the writer from the record;
`encodedLen` adds it up a third way, over the members of the set. The
three agree: `reads_refillHead`, `reads_refillGroups` and
`encodedLen_eq`.
-/

namespace TradeWire

attribute [local instance (high)] Zero.ofOfNat0

namespace OrderEntry

open Decoder Message

/-! ## Legs -/

namespace CrossGroup

variable (presence : Presence .w16)

/-- The bytes of a leg of a cross with these optional fields. -/
def layout (g : CrossGroup) : Bytes :=
  Field.bytes .little g.side ++ (Field.bytes .little g.allocQty ++ (Field.bytes .little g.clOrdId ++
    if presence.contains accountIndex then Field.bytes .little g.account else []))

theorem flatten_fields (g : CrossGroup) : (fields presence g).flatten = layout presence g := by
  unfold fields layout
  split <;> simp

/-- A leg takes what the presence set says, whatever it holds. -/
@[simp] theorem length_layout (g : CrossGroup) : (layout presence g).length = size presence := by
  unfold layout size
  split
  · simp only [List.length_append, Field.length_bytes]
    rfl
  · simp only [List.length_append, Field.length_bytes]
    rfl

/-- An account that is not shown does not count. -/
theorem canonical_eq (g : CrossGroup) :
    canonical presence g = { g with
      account := if presence.contains accountIndex then g.account else default } := by
  unfold canonical
  split <;> rfl

@[simp] theorem layout_canonical (g : CrossGroup) :
    layout presence (canonical presence g) = layout presence g := by
  rw [canonical_eq]
  simp only [layout, bytes_shown]

@[simp] theorem canonical_canonical (g : CrossGroup) :
    canonical presence (canonical presence g) = canonical presence g := by
  simp only [canonical_eq, shown_shown]

theorem reads_decoder (chunk : Bytes) (g : CrossGroup) :
    (decoder presence).Reads chunk g ↔ chunk = layout presence g ∧ canonical presence g = g := by
  obtain ⟨side, allocQty, clOrdId, account⟩ := g
  simp only [decoder, reads_field_bind, reads_fieldIf_bind, reads_pure, canonical_eq, layout,
    CrossGroup.mk.injEq, shown_iff, true_and]
  constructor
  · rintro ⟨_, _, rfl, _, _, rfl, _, _, rfl, _, _, rfl, hblank, rfl, rfl, rfl, rfl, rfl⟩
    exact ⟨by rw [List.append_nil], hblank⟩
  · rintro ⟨rfl, hblank⟩
    exact ⟨_, _, rfl, _, _, rfl, _, _, rfl, _, _, (List.append_nil _).symm, hblank, rfl, rfl, rfl,
      rfl, rfl⟩

theorem frugal_decoder : (decoder presence).Frugal := by
  simp [decoder, -bind_pure_comp]

/-- Legs are as many bytes as their number says. -/
theorem length_flatMap_layout (groups : List CrossGroup) :
    (groups.flatMap (layout presence)).length = groups.length * size presence := by
  induction groups with
  | nil => simp
  | cons g groups ih =>
    rw [List.flatMap_cons, List.length_append, ih, length_layout, List.length_cons, Nat.succ_mul,
      Nat.add_comm]

theorem flatten_flatMap_fields (groups : List CrossGroup) :
    (groups.flatMap (fields presence)).flatten = groups.flatMap (layout presence) := by
  induction groups with
  | nil => rfl
  | cons g groups ih =>
    rw [List.flatMap_cons, List.flatten_append, ih, flatten_fields, List.flatMap_cons]

end CrossGroup

namespace NewOrderCross

/-! ## What stands before the legs -/

/-- The bytes of a cross between its preamble and its legs. -/
def head (r : NewOrderCross) (count : UInt8) : Bytes :=
  Field.bytes .little r.crossId ++ (Field.bytes .little r.crossType ++
  (Field.bytes .little r.crossPrioritization ++ (Field.bytes .little r.price ++
  (Field.bytes .little r.orderQty ++ (Field.bytes .little r.presence ++
  ((if r.presence.contains symbolIndex then Field.bytes .little r.symbol else []) ++
  ((if r.presence.contains capacityIndex then Field.bytes .little r.capacity else []) ++
  ((if r.presence.contains clearingFirmIndex then Field.bytes .little r.clearingFirm else []) ++
  Field.bytes .little count))))))))

/-- The optional fields of the cross itself that are absent are blank. -/
structure Blank (r : NewOrderCross) : Prop where
  symbol : r.presence.contains symbolIndex = false → r.symbol = default
  capacity : r.presence.contains capacityIndex = false → r.capacity = default
  clearingFirm : r.presence.contains clearingFirmIndex = false → r.clearingFirm = default

theorem reads_refillHead (prior : NewOrderCross) (header : Header) (chunk : Bytes)
    (r : NewOrderCross) (count : UInt8) :
    (prior.refillHead header).Reads chunk (r, count) ↔
      (r.header = header ∧ r.groups = prior.groups) ∧ r.presence.Within defined ∧ r.Blank ∧
        chunk = r.head count := by
  obtain ⟨h, crossId, crossType, crossPrioritization, price, orderQty, presence, symbol, capacity,
    clearingFirm, groups⟩ := r
  simp only [refillHead, reads_field_bind, reads_fieldIf_bind, reads_require_bind, reads_pure,
    Prod.mk.injEq, NewOrderCross.mk.injEq, head]
  constructor
  · rintro ⟨_, _, rfl, _, _, rfl, _, _, rfl, _, _, rfl, _, _, rfl, _, _, rfl, hwithin, _, _, rfl,
      hsymbol, _, _, rfl, hcapacity, _, _, rfl, hfirm, _, _, rfl, rfl, ⟨rfl, rfl, rfl, rfl, rfl,
      rfl, rfl, rfl, rfl, rfl, rfl⟩, rfl⟩
    exact ⟨⟨rfl, rfl⟩, hwithin, ⟨hsymbol, hcapacity, hfirm⟩, by rw [List.append_nil]⟩
  · rintro ⟨⟨rfl, rfl⟩, hwithin, ⟨hsymbol, hcapacity, hfirm⟩, rfl⟩
    exact ⟨_, _, rfl, _, _, rfl, _, _, rfl, _, _, rfl, _, _, rfl, _, _, rfl, hwithin, _, _, rfl,
      hsymbol, _, _, rfl, hcapacity, _, _, rfl, hfirm, _, _, (List.append_nil _).symm, rfl,
      ⟨rfl, rfl, rfl, rfl, rfl, rfl, rfl, rfl, rfl, rfl, rfl⟩, rfl⟩

theorem frugal_refillHead (prior : NewOrderCross) (header : Header) :
    (prior.refillHead header).Frugal := by
  simp [refillHead, -bind_pure_comp]

/-! ## The legs, and the whole -/

theorem reads_refillGroups (prior : NewOrderCross) (count : UInt8) (chunk : Bytes)
    (r : NewOrderCross) :
    (prior.refillGroups count).Reads chunk r ↔
      ∃ groups, r = { prior with groups } ∧ groups.length = count.toNat ∧
        (∀ g ∈ groups, CrossGroup.canonical prior.presence g = g) ∧
        chunk = groups.flatMap (CrossGroup.layout prior.presence) := by
  simp only [refillGroups, reads_bind, reads_pure,
    reads_repeated (CrossGroup.reads_decoder prior.presence)]
  constructor
  · rintro ⟨groups, _, _, rfl, ⟨hcount, rfl, hcanon⟩, rfl, rfl⟩
    exact ⟨groups, rfl, hcount, hcanon, List.append_nil _⟩
  · rintro ⟨groups, rfl, hcount, hcanon, rfl⟩
    exact ⟨groups, _, [], (List.append_nil _).symm, ⟨hcount, rfl, hcanon⟩, rfl, rfl⟩

/-- The room asked for in front of the legs is what they take. -/
theorem le_length_of_reads_refillGroups (prior : NewOrderCross) (count : UInt8) (chunk : Bytes)
    (r : NewOrderCross) (h : (prior.refillGroups count).Reads chunk r) :
    count.toNat * CrossGroup.size prior.presence ≤ chunk.length := by
  obtain ⟨groups, -, hcount, -, rfl⟩ := (reads_refillGroups prior count chunk r).1 h
  exact Nat.le_of_eq (by rw [CrossGroup.length_flatMap_layout, hcount])

theorem frugal_refillGroups (prior : NewOrderCross) (count : UInt8) :
    (prior.refillGroups count).Frugal :=
  frugal_bind (frugal_repeated (CrossGroup.frugal_decoder prior.presence) _) fun _ => frugal_pure _

/-- What stands behind the preamble of a cross. -/
def body (r : NewOrderCross) : Bytes :=
  r.head (UInt8.ofNat r.groups.length) ++ r.groups.flatMap (CrossGroup.layout r.presence)

/-- The members of a set add up to the optional fields there are. -/
theorem sum_optionalSize (p : Presence .w16) :
    (p.toList.map optionalSize).sum = (if p.contains symbolIndex then 8 else 0) +
      ((if p.contains capacityIndex then 1 else 0) +
        if p.contains clearingFirmIndex then 4 else 0) := by
  have hsize : ∀ i, 3 ≤ i → optionalSize i = 0 := by
    rintro (_ | _ | _ | i) hi
    · cases hi
    · omega
    · omega
    · rfl
  rw [p.sum_toList (by decide) hsize]
  rfl

theorem length_head (r : NewOrderCross) (count : UInt8) :
    preambleSize + (r.head count).length = minSize + (r.presence.toList.map optionalSize).sum := by
  rw [sum_optionalSize]
  unfold head
  simp only [List.length_append, List.length_nil, apply_ite List.length, Field.length_bytes,
    Field.size_uint8, Field.size_uint32, Field.size_uint64, Field.size_octets,
    Presence.size_presence, Width.octets, preambleSize, minSize]
  omega

/-- **The length counted is the length laid out.** -/
theorem encodedLen_eq (r : NewOrderCross) : r.encodedLen = preambleSize + r.body.length := by
  rw [encodedLen, body, List.length_append, CrossGroup.length_flatMap_layout, ← Nat.add_assoc,
    length_head]

/-- **The longest cross** has all its optional fields, and as many legs
with accounts as can be counted. -/
theorem encodedLen_le {r : NewOrderCross} (h : r.groups.length ≤ maxGroupCount) :
    r.encodedLen ≤ 10515 := by
  have hoptional : (r.presence.toList.map optionalSize).sum ≤ 13 := by
    rw [sum_optionalSize]
    split <;> split <;> split <;> decide
  have hsize : CrossGroup.size r.presence ≤ 41 := by
    unfold CrossGroup.size
    split <;> decide
  have hgroups : r.groups.length * CrossGroup.size r.presence ≤ maxGroupCount * 41 :=
    Nat.mul_le_mul h hsize
  have hmin : minSize = 47 := rfl
  unfold encodedLen
  unfold maxGroupCount at hgroups
  omega

theorem flatten_optionalFields (r : NewOrderCross) : r.optionalFields.flatten =
    (if r.presence.contains symbolIndex then Field.bytes .little r.symbol else []) ++
    ((if r.presence.contains capacityIndex then Field.bytes .little r.capacity else []) ++
    if r.presence.contains clearingFirmIndex then Field.bytes .little r.clearingFirm else []) := by
  simp [optionalFields, apply_ite List.flatten]

theorem layout?_eq (r : NewOrderCross) :
    layout? r = if r.presence.Within defined ∧ r.groups.length ≤ maxGroupCount then
      some (r.header.layout typeByte (UInt16.ofNat (r.encodedLen - markerSize)) ++ r.body)
    else none := by
  change r.fields?.map List.flatten = _
  rw [fields?, guard_bind, guard_bind]
  simp only [List.append_assoc]
  by_cases hwithin : r.presence.Within defined
  · by_cases hcount : r.groups.length ≤ maxGroupCount
    · have hmin : preambleSize ≤ r.encodedLen := by
        rw [r.encodedLen_eq]
        exact Nat.le_add_right _ _
      have hmax : r.encodedLen < UInt16.size :=
        Nat.lt_of_le_of_lt (encodedLen_le hcount) (by decide)
      rw [if_pos hwithin, if_pos hcount, if_pos ⟨hwithin, hcount⟩,
        r.header.flatten_fields? typeByte hmin hmax]
      rw [List.flatten_append, List.flatten_append, List.flatten_append, r.flatten_optionalFields,
        CrossGroup.flatten_flatMap_fields]
      simp [body, head]
    · rw [if_pos hwithin, if_neg hcount, if_neg fun h => hcount h.2]
      rfl
  · rw [if_neg hwithin, if_neg fun h => hwithin h.1]
    rfl

/-! ## What a cross shows -/

theorem canonical_eq (r : NewOrderCross) :
    canonical r = { r with
      symbol := if r.presence.contains symbolIndex then r.symbol else default
      capacity := if r.presence.contains capacityIndex then r.capacity else default
      clearingFirm := if r.presence.contains clearingFirmIndex then r.clearingFirm else default
      groups := r.groups.map (CrossGroup.canonical r.presence) } := rfl

/-- A cross is canonical where all that is absent is blank. -/
theorem canonical_eq_self_iff (r : NewOrderCross) :
    canonical r = r ↔
      r.Blank ∧ ∀ g ∈ r.groups, CrossGroup.canonical r.presence g = g := by
  obtain ⟨header, crossId, crossType, crossPrioritization, price, orderQty, presence, symbol,
    capacity, clearingFirm, groups⟩ := r
  simp only [canonical_eq, NewOrderCross.mk.injEq, shown_iff, true_and]
  constructor
  · rintro ⟨hsymbol, hcapacity, hfirm, hgroups⟩
    exact ⟨⟨hsymbol, hcapacity, hfirm⟩, List.map_inj_left.1 (hgroups.trans (List.map_id _).symm)⟩
  · rintro ⟨⟨hsymbol, hcapacity, hfirm⟩, hgroups⟩
    exact ⟨hsymbol, hcapacity, hfirm, (List.map_inj_left.2 hgroups).trans (List.map_id _)⟩

theorem body_canonical (r : NewOrderCross) : (canonical r).body = r.body := by
  rw [canonical_eq]
  unfold body head
  simp only [List.length_map, List.flatMap_map, CrossGroup.layout_canonical, bytes_shown]

theorem encodedLen_canonical (r : NewOrderCross) : (canonical r).encodedLen = r.encodedLen := by
  rw [canonical_eq]
  simp only [encodedLen, List.length_map]

instance : LawfulMessage .little NewOrderCross := by
  refine lawful_of_framed NewOrderCross.header body
    (fun prior => show refill prior = framed typeByte _ from rfl)
    ?layout ?rules ?length ?canonical ?reads ?frugal
  case layout =>
    intro r h
    exact (layout?_eq r).trans (if_pos h)
  case rules =>
    intro r h
    by_cases hrules : r.presence.Within defined ∧ r.groups.length ≤ maxGroupCount
    · exact hrules
    · rw [layout?_eq, if_neg hrules] at h
      cases h
  case length =>
    intro r h
    exact ⟨r.encodedLen_eq, Nat.lt_of_le_of_lt (encodedLen_le h.2) (by decide)⟩
  case canonical =>
    intro r
    constructor
    · rw [layout?_eq, body_canonical, encodedLen_canonical, layout?_eq, canonical_eq]
      simp only [List.length_map]
    · simp only [canonical_eq, shown_shown, List.map_map]
      simp
  case reads =>
    intro prior r h chunk
    rw [reads_bind]
    constructor
    · rintro ⟨⟨r', count⟩, head, legs, rfl, hhead, hlegs⟩
      obtain ⟨⟨rfl, -⟩, hwithin, hblank, rfl⟩ := (reads_refillHead _ _ _ _ _).1 hhead
      obtain ⟨groups, rfl, hcount, hcanon, rfl⟩ := (reads_refillGroups _ _ _ _).1 hlegs
      have := count.toNat_lt
      have hmax : groups.length ≤ maxGroupCount := by
        rw [hcount]
        exact Nat.le_of_lt_succ this
      refine ⟨rfl, ⟨hwithin, hmax⟩,
        (canonical_eq_self_iff _).2 ⟨⟨hblank.1, hblank.2, hblank.3⟩, hcanon⟩, ?_⟩
      unfold body
      rw [hcount, UInt8.ofNat_toNat]
      rfl
    · rintro ⟨rfl, ⟨hwithin, hmax⟩, hcanon, rfl⟩
      obtain ⟨hblank, hgroups⟩ := (canonical_eq_self_iff r).1 hcanon
      refine ⟨({ r with groups := prior.groups }, UInt8.ofNat r.groups.length), _, _, rfl,
        (reads_refillHead _ _ _ _ _).2 ⟨⟨rfl, rfl⟩, hwithin, ⟨hblank.1, hblank.2, hblank.3⟩, rfl⟩,
        (reads_refillGroups _ _ _ _).2 ⟨r.groups, rfl, ?_, hgroups, rfl⟩⟩
      rw [UInt8.toNat_ofNat_of_lt' (Nat.lt_succ_of_le hmax)]
  case frugal =>
    intro prior h
    refine frugal_bind (prior.frugal_refillHead h) fun found => ?_
    obtain ⟨r, count⟩ := found
    exact frugal_ensure_bind (r.le_length_of_reads_refillGroups count) (r.frugal_refillGroups count)

end NewOrderCross

end OrderEntry

end TradeWire
