import TradeWire.Proofs.Reach
import TradeWire.Proofs.Arrival
import TradeWire.Proofs.Capacity
/-!
# Verdict — what an order-entry decoder says of any bytes

Three things can be wrong with bytes, and a decoder looks for them as it
goes: the marker and the type at once, a reserved bit where the bitmap
stands, the length announced only behind the last byte. In between the
bytes can run out, and whatever else is wrong further on is then not
seen. So the verdict is decided by two things of the bytes alone: why
they would be rejected (`Rejects`), and how many are needed (`need?`),
which the bitmap and the count of a cross say, once they are there.
-/

namespace TradeWire

-- Powers are those of `Nat` itself, whatever algebra is in scope.
attribute [local instance (high)] instPowNat

namespace OrderEntry

open Decoder

variable {bytes : Bytes}

/-! ## What the bytes say -/

/-- The number in so many bytes at an offset, where they are there. -/
def numberAt? (bytes : Bytes) (offset width : Nat) : Option Nat :=
  if offset + width ≤ bytes.length then
    some (ByteOrder.little.load ((bytes.drop offset).take width))
  else none

/-- **The bitmap of a message,** where the message has one and the bytes
reach behind it. -/
def Kind.bitmap? : Kind → Bytes → Option Nat
  | cancelOrder, bytes => numberAt? bytes 30 1
  | newOrderCross, bytes => numberAt? bytes 44 2
  | loginRequest, _ | logoutRequest, _ | clientHeartbeat, _ => none

/-- **How many bytes a message needs,** where the bytes reach far enough
to tell. -/
def Kind.need? : Kind → Bytes → Option Nat
  | logoutRequest, _ | clientHeartbeat, _ => some 10
  | loginRequest, _ => some 38
  | cancelOrder, bytes => do
    let bitmap ← cancelOrder.bitmap? bytes
    some (31 + if bitmap.testBit 0 then 4 else 0)
  | newOrderCross, bytes => do
    let bitmap ← newOrderCross.bitmap? bytes
    let optional := (if bitmap.testBit 0 then 8 else 0) + (if bitmap.testBit 1 then 1 else 0) +
      if bitmap.testBit 2 then 4 else 0
    let count ← numberAt? bytes (46 + optional) 1
    some (47 + optional + count * if bitmap.testBit 9 then 41 else 25)

/-- The bitmap is there and has a bit that stands for no field. -/
def Kind.Reserved (k : Kind) (bytes : Bytes) : Prop :=
  ∃ bitmap, k.bitmap? bytes = some bitmap ∧ ∃ i, bitmap.testBit i = true ∧ i ∉ k.optionalIndices

/-- The bytes begin with the marker, and have the type of this kind of
message. -/
structure Announces (k : Kind) (bytes : Bytes) : Prop where
  marker : bytes.take 2 = [0xBA, 0xBA]
  type : bytes[4]? = some (Message.type k.Record)

/-- **Why bytes are rejected** as a message of a kind. Each cause is told as
soon as the bytes reach behind it, and the one that comes first is the one
that counts. -/
inductive Rejects (k : Kind) (bytes : Bytes) : Prop where
  /-- There is no marker. -/
  | marker (there : 2 ≤ bytes.length) (wrong : bytes.take 2 ≠ [0xBA, 0xBA])
  /-- The type is another. -/
  | type (marker : bytes.take 2 = [0xBA, 0xBA]) (there : 5 ≤ bytes.length)
      (wrong : bytes[4]? ≠ some (Message.type k.Record))
  /-- A bit stands for no field. -/
  | reserved (announces : Announces k bytes) (wrong : k.Reserved bytes)
  /-- All that is needed is there, and another length announced. -/
  | length (announces : Announces k bytes) (defined : ¬ k.Reserved bytes) {n : Nat}
      (need : k.need? bytes = some n) (there : n ≤ bytes.length)
      (wrong : numberAt? bytes 2 2 ≠ some (n - 2))

/-- **A verdict on bytes,** by why they would be rejected and how many are
needed. -/
inductive Judged (rejects : Prop) (need? : Option Nat) (size : Nat) : Except Fault Nat → Prop where
  | rejected (h : rejects) : Judged rejects need? size (.error .badValue)
  | short (h : ¬ rejects) (lacks : ∀ n, need? = some n → size < n) :
      Judged rejects need? size (.error .shortBuffer)
  | whole (h : ¬ rejects) {n : Nat} (need : need? = some n) (there : n ≤ size) :
      Judged rejects need? size (.ok n)

/-! ## Numbers and bits where they stand -/

/-- A byte that is there, as one byte of the rest. -/
theorem take_one_drop {offset : Nat} (h : offset < bytes.length) :
    (bytes.drop offset).take 1 = [bytes[offset]] := by
  rw [List.drop_eq_getElem_cons h, List.take_succ_cons, List.take_zero]

/-- The bytes of a set denote its packed word. -/
theorem load_bytes_presence {w : Width} (p : Presence w) :
    ByteOrder.little.load (Field.bytes .little p) = p.bits.toNat := by
  have hlt : p.bits.toNat < 256 ^ w.octets := w.two_pow_bits ▸ p.bits.isLt
  exact (ByteOrder.load_store .little w.octets p.bits.toNat).trans (Nat.mod_eq_of_lt hlt)

/-- A bit of a packed word is a member of the set. -/
theorem testBit_load_bytes {w : Width} (p : Presence w) (i : Nat) :
    (ByteOrder.little.load (Field.bytes .little p)).testBit i = p.contains i := by
  rw [load_bytes_presence, Presence.contains_eq_getLsbD]
  rfl

/-- A set is within the fields of a message where its bitmap has no
reserved bit. -/
theorem within_iff_not_reserved {k : Kind} {w : Width} {p : Presence w}
    (h : k.bitmap? bytes = some (ByteOrder.little.load (Field.bytes .little p))) :
    p.Within (.ofList k.optionalIndices) ↔ ¬ k.Reserved bytes := by
  rw [Presence.within_ofList_iff, Kind.Reserved, h]
  simp [testBit_load_bytes]

/-- A field that is there is a number there. -/
theorem numberAt?_of_bytes {α : Type} [Field α] {offset n : Nat} {v : α}
    (hnext : offset + Field.size α = n) (h : n ≤ bytes.length)
    (hv : Field.bytes .little v = (bytes.drop offset).take (Field.size α)) :
    numberAt? bytes offset (Field.size α) =
      some (ByteOrder.little.load (Field.bytes .little v)) := by
  rw [numberAt?, if_pos (Nat.le_trans (Nat.le_of_eq hnext) h), hv]

/-- A bitmap stands behind the preamble. -/
theorem preambleSize_le_of_bitmap? {k : Kind} {bitmap : Nat} (h : k.bitmap? bytes = some bitmap) :
    preambleSize ≤ bytes.length := by
  cases k with
  | loginRequest | logoutRequest | clientHeartbeat => cases h
  | cancelOrder =>
    have hle : 31 ≤ bytes.length := (Option.ite_none_right_eq_some.1 h).1
    exact Nat.le_trans (by decide) hle
  | newOrderCross =>
    have hle : 46 ≤ bytes.length := (Option.ite_none_right_eq_some.1 h).1
    exact Nat.le_trans (by decide) hle

/-- Where there is no bitmap, none of its bits is set. -/
theorem not_reserved_of_bitmap? {k : Kind} (h : k.bitmap? bytes = none) : ¬ k.Reserved bytes := by
  rintro ⟨bitmap, hbitmap, -⟩
  rw [h] at hbitmap
  cases hbitmap

/-- Every message needs its preamble. -/
theorem preambleSize_le_need {k : Kind} {n : Nat} (h : k.need? bytes = some n) :
    preambleSize ≤ n := by
  cases k with
  | loginRequest | logoutRequest | clientHeartbeat =>
    cases h
    decide
  | cancelOrder =>
    obtain ⟨bitmap, -, hn⟩ := Option.bind_eq_some_iff.1 h
    cases hn
    exact Nat.le_trans (by decide : 10 ≤ 31) (Nat.le_add_right _ _)
  | newOrderCross =>
    obtain ⟨bitmap, -, hn⟩ := Option.bind_eq_some_iff.1 h
    obtain ⟨count, -, hn⟩ := Option.bind_eq_some_iff.1 hn
    cases hn
    unfold preambleSize
    omega

/-! ## The preamble, part by part -/

section Preamble

variable {β : Type}

theorem reach_marker_bind (f : Unit → Decoder .little β) (bytes : Bytes) :
    (marker >>= f).reach bytes 0 =
      if 2 ≤ bytes.length then
        if bytes.take 2 = [0xBA, 0xBA] then (f ()).reach bytes 2 else .error .badValue
      else .error .shortBuffer := by
  have hbytes : Field.bytes .little startOfMessage = [0xBA, 0xBA] := rfl
  rw [marker, bind_assoc]
  split
  · next hthere =>
    rw [reach_expect startOfMessage f (show 0 + Field.size UInt16 = 2 from rfl) hthere, hbytes]
    rfl
  · next hshort =>
    have htakes : (field >>= fun found => require (found = startOfMessage) >>= f).AtLeast 2 := by
      simp
    exact reach_of_atLeast 2 htakes (Nat.zero_le _) (by omega)

/-- The type, behind a length that is not looked at yet. -/
theorem reach_type_bind (type : UInt8) (f : UInt16 → Decoder .little β) (h : 2 ≤ bytes.length) :
    ∃ length, (do
      let length ← field
      let found : UInt8 ← field
      require (found = type)
      f length).reach bytes 2 =
        if 5 ≤ bytes.length then
          if bytes[4]? = some type then (f length).reach bytes 5 else .error .badValue
        else .error .shortBuffer := by
  split
  · next hthere =>
    obtain ⟨length, -, hlength⟩ :=
      field_at .little UInt16 (show 2 + Field.size UInt16 = 4 from rfl) (Nat.le_of_lt hthere)
    refine ⟨length, ?_⟩
    rw [hlength, reach_expect type _ (show 4 + Field.size UInt8 = 5 from rfl) hthere,
      Field.bytes_uint8, Field.size_uint8, take_one_drop hthere, List.getElem?_eq_getElem hthere]
    simp
  · next hshort =>
    refine ⟨0, reach_of_atLeast 3 ?_ h (by omega)⟩
    simp

/-- The header. -/
theorem reach_header_bind (f : Header → Decoder .little β) (h : 5 ≤ bytes.length) :
    ∃ header, (do
      let matchingUnit ← field
      let sequenceNumber ← field
      f { matchingUnit, sequenceNumber }).reach bytes 5 =
        if preambleSize ≤ bytes.length then (f header).reach bytes preambleSize
        else .error .shortBuffer := by
  split
  · next hthere =>
    obtain ⟨matchingUnit, -, hunit⟩ := field_at .little UInt8
      (show 5 + Field.size UInt8 = 6 from rfl) (Nat.le_trans (by decide) hthere)
    obtain ⟨sequenceNumber, -, hnumber⟩ := field_at .little UInt32
      (show 6 + Field.size UInt32 = preambleSize from rfl) hthere
    refine ⟨{ matchingUnit, sequenceNumber }, ?_⟩
    rw [hunit, hnumber]
  · next hshort =>
    have hsize : preambleSize = 10 := rfl
    refine ⟨{}, reach_of_atLeast 5 ?_ h (by omega)⟩
    simp

end Preamble

/-! ## Why bytes are not rejected -/

section Framed

variable {α β : Type} {k : Kind}

/-- Bytes that are announced right are rejected for their bitmap or their
length only. -/
theorem not_rejects_of_announces (h : Announces k bytes) (hdefined : ¬ k.Reserved bytes)
    (hlength : ∀ n, k.need? bytes = some n → n ≤ bytes.length →
      numberAt? bytes 2 2 = some (n - 2)) :
    ¬ Rejects k bytes := by
  rintro (⟨-, wrong⟩ | ⟨-, -, wrong⟩ | ⟨-, wrong⟩ | ⟨-, -, need, there, wrong⟩)
  · exact wrong h.marker
  · exact wrong h.type
  · exact hdefined wrong
  · exact wrong (hlength _ need there)

/-- Where a preamble is cut short, nothing behind it is wrong yet. -/
theorem not_rejects_of_short (hshort : bytes.length < preambleSize)
    (hmarker : 2 ≤ bytes.length → bytes.take 2 = [0xBA, 0xBA])
    (htype : 5 ≤ bytes.length → bytes[4]? = some (Message.type k.Record)) :
    ¬ Rejects k bytes := by
  rintro (⟨there, wrong⟩ | ⟨-, there, wrong⟩ | ⟨-, bitmap, hbitmap, -⟩ | ⟨-, -, need, there, -⟩)
  · exact wrong (hmarker there)
  · exact wrong (htype there)
  · have := preambleSize_le_of_bitmap? hbitmap
    omega
  · have := preambleSize_le_need need
    omega

/-- **What a preamble says of the bytes:** it rejects them, or lacks bytes,
or what follows it begins behind it, under the header read. -/
theorem reach_preamble_bind (k : Kind) (f : Header → Decoder .little β) (bytes : Bytes)
    {reached : Except Fault Nat}
    (h : (preamble (Message.type k.Record) >>= fun found => f found.2).reach bytes 0 = reached) :
    (Rejects k bytes ∧ reached = .error .badValue) ∨
    (bytes.length < preambleSize ∧ ¬ Rejects k bytes ∧ reached = .error .shortBuffer) ∨
    (preambleSize ≤ bytes.length ∧ Announces k bytes ∧
      ∃ header, (f header).reach bytes preambleSize = reached) := by
  have hsize : preambleSize = 10 := rfl
  simp only [preamble, bind_assoc, pure_bind] at h
  rw [reach_marker_bind] at h
  rcases Nat.lt_or_ge bytes.length 2 with hlt | htwo
  · rw [if_neg (by omega)] at h
    have hnot : ¬ Rejects k bytes := not_rejects_of_short (by omega) (by omega) (by omega)
    exact .inr (.inl ⟨by omega, hnot, h.symm⟩)
  rw [if_pos htwo] at h
  by_cases hmarker : bytes.take 2 = [0xBA, 0xBA]
  · obtain ⟨length, hlength⟩ := reach_type_bind (Message.type k.Record) (fun _ => do
      let matchingUnit ← field
      let sequenceNumber ← field
      f { matchingUnit, sequenceNumber }) htwo
    rw [if_pos hmarker, hlength] at h
    rcases Nat.lt_or_ge bytes.length 5 with hlt | hfive
    · rw [if_neg (by omega)] at h
      have hnot : ¬ Rejects k bytes :=
        not_rejects_of_short (by omega) (fun _ => hmarker) (by omega)
      exact .inr (.inl ⟨by omega, hnot, h.symm⟩)
    rw [if_pos hfive] at h
    by_cases htype : bytes[4]? = some (Message.type k.Record)
    · obtain ⟨header, hheader⟩ := reach_header_bind f hfive
      rw [if_pos htype, hheader] at h
      rcases Nat.lt_or_ge bytes.length preambleSize with hlt | hten
      · rw [if_neg (by omega)] at h
        have hnot := not_rejects_of_short hlt (fun _ => hmarker) (fun _ => htype)
        exact .inr (.inl ⟨hlt, hnot, h.symm⟩)
      · rw [if_pos hten] at h
        exact .inr (.inr ⟨hten, ⟨hmarker, htype⟩, header, h⟩)
    · rw [if_neg htype] at h
      exact .inl ⟨.type hmarker hfive htype, h.symm⟩
  · rw [if_neg hmarker] at h
    exact .inl ⟨.marker htwo hmarker, h.symm⟩

/-- The length a preamble reads is the one its bytes announce. -/
theorem declaredSize_of_run {type : UInt8} {length : UInt16} {header : Header}
    {t : Source .little} (hrun : (preamble type).run ⟨bytes, 0⟩ = (.ok (length, header), t)) :
    declaredSize bytes = markerSize + length.toNat := by
  obtain ⟨chunk, rest, hbytes, hreads, -⟩ := reads_of_run hrun
  rw [reads_preamble] at hreads
  replace hbytes : bytes = header.layout type length ++ rest := hreads ▸ hbytes
  rw [hbytes, declaredSize, header.load_layout]

/-- **What the frame adds to its parts** is one check: the message is to end
where the length says. -/
theorem reach_framed (type : UInt8) (body : Header → Decoder .little α) (bytes : Bytes) :
    (framed type body).reach bytes 0 =
      match (preamble type >>= fun found => body found.2).reach bytes 0 with
      | .ok n => if n = declaredSize bytes then .ok n else .error .badValue
      | .error fault => .error fault := by
  unfold framed reach
  rw [run_bind, run_measured, run_bind, run_bind]
  rcases hrun : (preamble type).run ⟨bytes, 0⟩ with ⟨_ | ⟨length, header⟩, t⟩
  · rfl
  · dsimp only
    rw [run_bind, declaredSize_of_run hrun]
    rcases (body header).run t with ⟨_ | v, u⟩
    · rfl
    · have hcheck := reach_require_bind (u.pos - 0 = markerSize + length.toNat)
        (fun _ => (pure v : Decoder .little α)) u.bytes u.pos
      exact hcheck

/-- Of a message that is there, the length announced is a number there. -/
theorem numberAt?_length_iff {n : Nat} (hmin : preambleSize ≤ n) (hle : n ≤ bytes.length) :
    numberAt? bytes 2 2 = some (n - 2) ↔ n = declaredSize bytes := by
  have hsize : preambleSize = 10 := rfl
  have hmarker : markerSize = 2 := rfl
  rw [numberAt?, if_pos (by omega), Option.some.injEq, declaredSize, hmarker]
  omega

/-- **A message is judged as its body is,** once its preamble is in
order. -/
theorem judged_framed (k : Kind) (body : Header → Decoder .little α) (bytes : Bytes)
    (hbody : preambleSize ≤ bytes.length → ∀ header,
      Judged (k.Reserved bytes) (k.need? bytes) bytes.length
        ((body header).reach bytes preambleSize)) :
    Judged (Rejects k bytes) (k.need? bytes) bytes.length
      ((framed (Message.type k.Record) body).reach bytes 0) := by
  rw [reach_framed]
  obtain ⟨hrejects, h⟩ | ⟨hlt, hnot, h⟩ | ⟨hten, hannounces, header, h⟩ :=
    reach_preamble_bind k body bytes rfl
  · rw [h]
    exact .rejected hrejects
  · rw [h]
    refine .short hnot fun n hneed => ?_
    have := preambleSize_le_need hneed
    omega
  · have hjudged := hbody hten header
    rw [← h]
    generalize (body header).reach bytes preambleSize = reached at hjudged
    cases hjudged with
    | rejected hreserved => exact .rejected (.reserved hannounces hreserved)
    | short hdefined lacks =>
      refine .short (not_rejects_of_announces hannounces hdefined fun n hneed hle => ?_) lacks
      have := lacks n hneed
      omega
    | @whole hdefined n need there =>
      have hlength := numberAt?_length_iff (preambleSize_le_need need) there
      dsimp only
      split
      · next heq =>
        refine .whole (not_rejects_of_announces hannounces hdefined fun m hneed _ => ?_) need there
        obtain rfl : m = n := Option.some.inj (hneed.symm.trans need)
        exact hlength.2 heq
      · next hne =>
        exact .rejected (.length hannounces hdefined need there fun h => hne (hlength.1 h))

end Framed

/-! ## The bodies -/

section Bodies

variable {α : Type} {d : Decoder .little α} {reserved : Prop} {need? : Option Nat} {start : Nat}

/-- Too few bytes for what is taken in any case are too few for the whole. -/
theorem judged_of_atLeast (least : Nat) (hd : d.AtLeast least) (hstart : start ≤ bytes.length)
    (hlt : bytes.length < start + least) (hdefined : ¬ reserved)
    (hneed : ∀ n, need? = some n → start + least ≤ n) :
    Judged reserved need? bytes.length (d.reach bytes start) := by
  rw [reach_of_atLeast least hd hstart hlt]
  exact .short hdefined fun n h => Nat.lt_of_lt_of_le hlt (hneed n h)

/-- Where nothing more is checked, only how many bytes there are counts. -/
theorem judged_of_fixed (size : Nat) (hd : d.Fixed size) (hstart : start ≤ bytes.length)
    (hdefined : ¬ reserved) (hneed : need? = some (start + size)) :
    Judged reserved need? bytes.length (d.reach bytes start) := by
  rw [reach_of_fixed hd hstart]
  split
  · next hle => exact .whole hdefined hneed hle
  · next hlt =>
    refine .short hdefined fun n h => ?_
    obtain rfl : start + size = n := Option.some.inj (hneed.symm.trans h)
    omega

/-- A bitmap is judged where it stands. -/
theorem judged_of_presence {k : Kind} {w : Width} {p : Presence w}
    (hbitmap : k.bitmap? bytes = some (ByteOrder.little.load (Field.bytes .little p)))
    (f : Unit → Decoder .little α)
    (hrest : ¬ k.Reserved bytes → Judged (k.Reserved bytes) need? bytes.length
      ((f ()).reach bytes start)) :
    Judged (k.Reserved bytes) need? bytes.length
      ((require (p.Within (.ofList k.optionalIndices)) >>= f).reach bytes start) := by
  rw [reach_require_bind]
  split
  · next hwithin => exact hrest ((within_iff_not_reserved hbitmap).1 hwithin)
  · next hwithin =>
    exact .rejected (Classical.not_not.1 fun h => hwithin ((within_iff_not_reserved hbitmap).2 h))

/-- A message that shows no bitmap is judged by its size. -/
theorem judged_framed_fixed (k : Kind) (size : Nat) {body : Header → Decoder .little α}
    (hbitmap : k.bitmap? bytes = none) (hneed : k.need? bytes = some (preambleSize + size))
    (hbody : ∀ header, (body header).Fixed size) :
    Judged (Rejects k bytes) (k.need? bytes) bytes.length
      ((framed (Message.type k.Record) body).reach bytes 0) :=
  judged_framed k body bytes fun hten header =>
    judged_of_fixed size (hbody header) hten (not_reserved_of_bitmap? hbitmap) hneed

theorem judged_loginRequest (prior : LoginRequest) (bytes : Bytes) :
    Judged (Rejects .loginRequest bytes) (Kind.loginRequest.need? bytes) bytes.length
      ((Message.refill prior).reach bytes 0) := by
  refine judged_framed_fixed .loginRequest (4 + (4 + (20 + 0))) rfl rfl fun header => ?_
  exact fixed_bind fixed_field fun sessionSubId => fixed_bind fixed_field fun username =>
    fixed_bind fixed_field fun password => rfl

theorem judged_cancelOrder (prior : CancelOrder) (bytes : Bytes) :
    Judged (Rejects .cancelOrder bytes) (Kind.cancelOrder.need? bytes) bytes.length
      (prior.refill.reach bytes 0) := by
  refine judged_framed .cancelOrder _ bytes fun hten header => ?_
  rcases Nat.lt_or_ge bytes.length 31 with hlt | hle
  · have hnone : Kind.cancelOrder.bitmap? bytes = none := if_neg (by omega)
    refine judged_of_atLeast 21 ?_ hten hlt (not_reserved_of_bitmap? hnone) fun n h => ?_
    · simp [Width.octets]
    · rw [Kind.need?, hnone] at h
      cases h
  · obtain ⟨origClOrdId, -, hid⟩ :=
      field_at .little (Octets 20) (show preambleSize + 20 = 30 from rfl) (Nat.le_of_lt hle)
    obtain ⟨presence, hpresence, hnext⟩ :=
      field_at .little (Presence .w8) (show 30 + Field.size (Presence .w8) = 31 from rfl) hle
    have hbitmap : Kind.cancelOrder.bitmap? bytes =
        some (ByteOrder.little.load (Field.bytes .little presence)) :=
      numberAt?_of_bytes (show 30 + Field.size (Presence .w8) = 31 from rfl) hle hpresence
    rw [hid, hnext]
    refine judged_of_presence hbitmap _ fun hdefined => ?_
    refine judged_of_fixed (if presence.contains 0 then 4 else 0) ?_ hle hdefined ?_
    · exact fixed_bind (m := 0) (fixed_fieldIf _) fun _ => rfl
    · rw [Kind.need?, hbitmap, ← testBit_load_bytes]
      rfl

/-- A leg is sixteen bytes longer where it shows its account. -/
theorem CrossGroup.size_eq (presence : Presence .w16) :
    size presence = if presence.contains 9 then 41 else 25 := by
  change (25 + if presence.contains 9 then 16 else 0) = _
  split <;> rfl

/-- A leg takes what the presence set says, and nothing in it is
checked. -/
theorem CrossGroup.fixed_decoder (presence : Presence .w16) :
    (decoder presence).Fixed (size presence) := by
  have hsize : size presence =
      1 + (4 + (20 + ((if presence.contains accountIndex then 16 else 0) + 0))) := by
    unfold size minSize
    omega
  rw [hsize]
  exact fixed_bind fixed_field fun side => fixed_bind fixed_field fun allocQty =>
    fixed_bind fixed_field fun clOrdId => fixed_bind (fixed_fieldIf _) fun account => rfl

/-- So do as many legs as the count says. -/
theorem NewOrderCross.fixed_refillGroups (r : NewOrderCross) (count : UInt8) :
    (r.refillGroups count).Fixed (count.toNat * CrossGroup.size r.presence) :=
  fixed_bind (m := 0) (fixed_repeated (CrossGroup.fixed_decoder r.presence) count.toNat)
    fun _ => rfl

/-- Where the count of a cross stands: behind the optional fields it
shows. -/
def countOffset (presence : Presence .w16) : Nat :=
  46 + ((if presence.contains 0 then 8 else 0) + (if presence.contains 1 then 1 else 0) +
    if presence.contains 2 then 4 else 0)

/-- **What a cross needs,** by the presence set in its bitmap. -/
theorem need?_of_presence {presence : Presence .w16}
    (hbitmap : Kind.newOrderCross.bitmap? bytes =
      some (ByteOrder.little.load (Field.bytes .little presence))) :
    Kind.newOrderCross.need? bytes = (do
      let count ← numberAt? bytes (countOffset presence) 1
      some (countOffset presence + 1 + count * CrossGroup.size presence)) := by
  have hbehind : countOffset presence + 1 = 47 + ((if presence.contains 0 then 8 else 0) +
      (if presence.contains 1 then 1 else 0) + if presence.contains 2 then 4 else 0) := by
    unfold countOffset
    omega
  rw [hbehind, CrossGroup.size_eq]
  simp only [Kind.need?, hbitmap, Option.bind_eq_bind, Option.bind_some, testBit_load_bytes,
    countOffset]

/-- **What stands behind the bitmap of a cross:** the optional fields it
shows, a count, and as many legs. -/
theorem judged_optionalFields {presence : Presence .w16} (hle : 46 ≤ bytes.length)
    (hbitmap : Kind.newOrderCross.bitmap? bytes =
      some (ByteOrder.little.load (Field.bytes .little presence)))
    (hdefined : ¬ Kind.newOrderCross.Reserved bytes)
    {legs : Octets 8 → UInt8 → Octets 4 → UInt8 → Decoder .little α}
    (hlegs : ∀ symbol capacity clearingFirm count,
      (legs symbol capacity clearingFirm count).Fixed (count.toNat * CrossGroup.size presence)) :
    Judged (Kind.newOrderCross.Reserved bytes) (Kind.newOrderCross.need? bytes) bytes.length ((do
      let symbol ← fieldIf (presence.contains NewOrderCross.symbolIndex)
      let capacity ← fieldIf (presence.contains NewOrderCross.capacityIndex)
      let clearingFirm ← fieldIf (presence.contains NewOrderCross.clearingFirmIndex)
      let count ← field
      legs symbol capacity clearingFirm count).reach bytes 46) := by
  have hneed := need?_of_presence hbitmap
  have hoffset : countOffset presence = 46 + ((if presence.contains 0 then 8 else 0) +
      (if presence.contains 1 then 1 else 0) + if presence.contains 2 then 4 else 0) := rfl
  rcases Nat.lt_or_ge bytes.length (countOffset presence + 1) with hlt | hthere
  · have hnone : numberAt? bytes (countOffset presence) 1 = none := if_neg (by omega)
    refine judged_of_atLeast ((if presence.contains 0 then 8 else 0) +
      ((if presence.contains 1 then 1 else 0) + ((if presence.contains 2 then 4 else 0) + 1)))
      ?_ hle (by omega) hdefined fun n h => ?_
    · refine atLeast_bind_of_fixed (fixed_fieldIf _) fun symbol => ?_
      refine atLeast_bind_of_fixed (fixed_fieldIf _) fun capacity => ?_
      refine atLeast_bind_of_fixed (fixed_fieldIf _) fun clearingFirm => ?_
      simp
    · rw [hneed, hnone] at h
      cases h
  · obtain ⟨symbolEnd, hsymbol⟩ :
        ∃ n, 46 + (if presence.contains 0 then 8 else 0) = n := ⟨_, rfl⟩
    obtain ⟨capacityEnd, hcapacity⟩ :
        ∃ n, symbolEnd + (if presence.contains 1 then 1 else 0) = n := ⟨_, rfl⟩
    have hfirm : capacityEnd + (if presence.contains 2 then 4 else 0) = countOffset presence := by
      omega
    have hcount : countOffset presence + Field.size UInt8 = countOffset presence + 1 := rfl
    obtain ⟨symbol, hs⟩ := fieldIf_at .little (Octets 8) _ hsymbol
      (show symbolEnd ≤ bytes.length by omega)
    obtain ⟨capacity, hc⟩ := fieldIf_at .little UInt8 _ hcapacity
      (show capacityEnd ≤ bytes.length by omega)
    obtain ⟨clearingFirm, hf⟩ := fieldIf_at .little (Octets 4) _ hfirm
      (show countOffset presence ≤ bytes.length by omega)
    obtain ⟨count, hbytes, hl⟩ := field_at .little UInt8 hcount hthere
    have hnumber : numberAt? bytes (countOffset presence) 1 = some count.toNat := by
      have hload := numberAt?_of_bytes hcount hthere hbytes
      rw [Field.bytes_uint8] at hload
      exact hload
    rw [NewOrderCross.symbolIndex, hs, NewOrderCross.capacityIndex, hc,
      NewOrderCross.clearingFirmIndex, hf, hl]
    refine judged_of_fixed _ (hlegs symbol capacity clearingFirm count) hthere hdefined ?_
    rw [hneed, hnumber]
    rfl

theorem judged_newOrderCross (prior : NewOrderCross) (bytes : Bytes) :
    Judged (Rejects .newOrderCross bytes) (Kind.newOrderCross.need? bytes) bytes.length
      (prior.refill.reach bytes 0) := by
  refine judged_framed .newOrderCross _ bytes fun hten header => ?_
  rcases Nat.lt_or_ge bytes.length 46 with hlt | hle
  · have hnone : Kind.newOrderCross.bitmap? bytes = none := if_neg (by omega)
    refine judged_of_atLeast 36 ?_ hten hlt (not_reserved_of_bitmap? hnone) fun n h => ?_
    · simp [NewOrderCross.refillHead, Width.octets]
    · rw [Kind.need?, hnone] at h
      cases h
  · -- The fields are found before the decoder is opened: it is long, and each
    -- case split would carry it along.
    obtain ⟨crossId, -, hid⟩ := field_at .little (Octets 20)
      (show preambleSize + 20 = 30 from rfl) (Nat.le_trans (by decide) hle)
    obtain ⟨crossType, -, htype⟩ := field_at .little UInt8
      (show 30 + Field.size UInt8 = 31 from rfl) (Nat.le_trans (by decide) hle)
    obtain ⟨crossPrioritization, -, hprioritization⟩ := field_at .little UInt8
      (show 31 + Field.size UInt8 = 32 from rfl) (Nat.le_trans (by decide) hle)
    obtain ⟨price, -, hprice⟩ := field_at .little UInt64
      (show 32 + Field.size UInt64 = 40 from rfl) (Nat.le_trans (by decide) hle)
    obtain ⟨orderQty, -, hqty⟩ := field_at .little UInt32
      (show 40 + Field.size UInt32 = 44 from rfl) (Nat.le_trans (by decide) hle)
    obtain ⟨presence, hpresence, hnext⟩ := field_at .little (Presence .w16)
      (show 44 + Field.size (Presence .w16) = 46 from rfl) hle
    have hbitmap : Kind.newOrderCross.bitmap? bytes =
        some (ByteOrder.little.load (Field.bytes .little presence)) :=
      numberAt?_of_bytes (show 44 + Field.size (Presence .w16) = 46 from rfl) hle hpresence
    simp only [NewOrderCross.refillHead, bind_assoc, pure_bind]
    rw [hid, htype, hprioritization, hprice, hqty, hnext]
    refine judged_of_presence hbitmap _ fun hdefined => ?_
    refine judged_optionalFields hle hbitmap hdefined fun symbol capacity clearingFirm count => ?_
    exact fixed_ensure_bind (Nat.le_refl _) (NewOrderCross.fixed_refillGroups _ count)

end Bodies

/-- **Every order-entry decoder is judged so,** over whatever record. -/
theorem judged_refill : ∀ (k : Kind) (prior : k.Record) (bytes : Bytes),
    Judged (Rejects k bytes) (k.need? bytes) bytes.length ((Message.refill prior).reach bytes 0)
  | .loginRequest, prior, bytes => judged_loginRequest prior bytes
  | .logoutRequest, _, _ =>
    judged_framed_fixed .logoutRequest 0 rfl rfl fun _ => (fixed_pure _ 0).2 rfl
  | .clientHeartbeat, _, _ =>
    judged_framed_fixed .clientHeartbeat 0 rfl rfl fun _ => (fixed_pure _ 0).2 rfl
  | .cancelOrder, prior, bytes => judged_cancelOrder prior bytes
  | .newOrderCross, prior, bytes => judged_newOrderCross prior bytes

/-! ## The verdict of a decoder -/

section Verdicts

variable {α : Type} {rejects : Prop} {need? : Option Nat} {size : Nat}
  {result : Except Fault (α × Nat)}

theorem Judged.eq_badValue_iff (h : Judged rejects need? size (result.map Prod.snd)) :
    result = .error .badValue ↔ rejects := by
  rcases result with fault | ⟨record, n⟩
  · cases h with
    | rejected hrejects => exact iff_of_true rfl hrejects
    | short hnot lacks => exact iff_of_false (by simp) hnot
  · cases h with
    | whole hnot need there => exact iff_of_false (by simp) hnot

theorem Judged.eq_shortBuffer_iff (h : Judged rejects need? size (result.map Prod.snd)) :
    result = .error .shortBuffer ↔ ¬ rejects ∧ ∀ n, need? = some n → size < n := by
  rcases result with fault | ⟨record, n⟩
  · cases h with
    | rejected hrejects => exact iff_of_false (by simp) fun hlacks => hlacks.1 hrejects
    | short hnot lacks => exact iff_of_true rfl ⟨hnot, lacks⟩
  · cases h with
    | whole hnot need there =>
      exact iff_of_false (by simp) fun hlacks => Nat.not_lt.2 there (hlacks.2 n need)

theorem Judged.eq_ok_iff (h : Judged rejects need? size (result.map Prod.snd)) (n : Nat) :
    (∃ record, result = .ok (record, n)) ↔ ¬ rejects ∧ need? = some n ∧ n ≤ size := by
  rcases result with fault | ⟨record, taken⟩
  · cases h with
    | rejected hrejects => exact iff_of_false (by simp) fun hwhole => hwhole.1 hrejects
    | short hnot lacks =>
      exact iff_of_false (by simp) fun ⟨_, need, there⟩ => Nat.not_lt.2 there (lacks n need)
  · cases h with
    | whole hnot need there =>
      constructor
      · rintro ⟨_, heq⟩
        cases heq
        exact ⟨hnot, need, there⟩
      · rintro ⟨-, hneed, -⟩
        obtain rfl : taken = n := Option.some.inj (need.symm.trans hneed)
        exact ⟨record, rfl⟩

end Verdicts

theorem judged_decode (k : Kind) (bytes : Bytes) :
    Judged (Rejects k bytes) (k.need? bytes) bytes.length
      ((Message.decode (M := k.Record) bytes).map Prod.snd) := by
  have hjudged := judged_refill k Message.blank bytes
  rw [reach_zero] at hjudged
  exact hjudged

/-- **The bytes hold a message of this size,** and it is in order, but for the
length it announces. -/
structure Complete (k : Kind) (bytes : Bytes) (n : Nat) : Prop where
  announces : Announces k bytes
  defined : ¬ k.Reserved bytes
  need : k.need? bytes = some n
  there : n ≤ bytes.length

section Complete

variable {k : Kind} {n : Nat}

/-- It is accepted where it announces its own length. -/
theorem exists_decode_iff_complete :
    (∃ record, Message.decode (M := k.Record) bytes = .ok (record, n)) ↔
      Complete k bytes n ∧ numberAt? bytes 2 2 = some (n - 2) := by
  rw [(judged_decode k bytes).eq_ok_iff]
  constructor
  · rintro ⟨hsound, hneed, hthere⟩
    have hten := Nat.le_trans (preambleSize_le_need hneed) hthere
    have hmarker : bytes.take 2 = [0xBA, 0xBA] :=
      Classical.not_not.1 fun wrong => hsound (.marker (Nat.le_trans (by decide) hten) wrong)
    have htype : bytes[4]? = some (Message.type k.Record) :=
      Classical.not_not.1 fun wrong => hsound (.type hmarker (Nat.le_trans (by decide) hten) wrong)
    have hdefined : ¬ k.Reserved bytes := fun wrong => hsound (.reserved ⟨hmarker, htype⟩ wrong)
    refine ⟨⟨⟨hmarker, htype⟩, hdefined, hneed, hthere⟩, Classical.not_not.1 fun wrong => ?_⟩
    exact hsound (.length ⟨hmarker, htype⟩ hdefined hneed hthere wrong)
  · rintro ⟨h, hlength⟩
    refine ⟨not_rejects_of_announces h.announces h.defined fun m hm _ => ?_, h.need, h.there⟩
    obtain rfl : m = n := Option.some.inj (hm.symm.trans h.need)
    exact hlength

/-- And rejected where it announces another. -/
theorem Complete.decode_of_ne (h : Complete k bytes n)
    (hlength : numberAt? bytes 2 2 ≠ some (n - 2)) :
    Message.decode (M := k.Record) bytes = .error .badValue :=
  (judged_decode k bytes).eq_badValue_iff.2 (.length h.announces h.defined h.need h.there hlength)

/-- A message in order that is not all there lacks bytes, whatever it
announces. -/
theorem decode_of_lt (hannounces : Announces k bytes) (hdefined : ¬ k.Reserved bytes)
    (hneed : k.need? bytes = some n) (hlacks : bytes.length < n) :
    Message.decode (M := k.Record) bytes = .error .shortBuffer := by
  have hunique : ∀ m, k.need? bytes = some m → m = n := fun m hm =>
    Option.some.inj (hm.symm.trans hneed)
  refine (judged_decode k bytes).eq_shortBuffer_iff.2 ⟨?_, fun m hm => hunique m hm ▸ hlacks⟩
  refine not_rejects_of_announces hannounces hdefined fun m hm hle => ?_
  rw [hunique m hm] at hle
  omega

end Complete

/-- **What an order-entry decoder says of any bytes.** It rejects them for
the marker, the type, a reserved bit or the length, and for nothing else.
Bytes it does not reject lack bytes exactly where there are fewer than the
message needs, or too few to tell how many that are. The others are
accepted, and as many are taken as the message needs. No decoder finds a
type unknown. -/
theorem decode_verdict (k : Kind) (bytes : Bytes) :
    (Message.decode (M := k.Record) bytes = .error .badValue ↔ Rejects k bytes) ∧
    (Message.decode (M := k.Record) bytes = .error .shortBuffer ↔
      ¬ Rejects k bytes ∧ ∀ n, k.need? bytes = some n → bytes.length < n) ∧
    (∀ n, (∃ record, Message.decode (M := k.Record) bytes = .ok (record, n)) ↔
      ¬ Rejects k bytes ∧ k.need? bytes = some n ∧ n ≤ bytes.length) ∧
    Message.decode (M := k.Record) bytes ≠ .error .unknownType := by
  have hjudged := judged_decode k bytes
  have hknown := decode_ne_unknownType (Message.refill (Message.blank : k.Record)) bytes
  exact ⟨hjudged.eq_badValue_iff, hjudged.eq_shortBuffer_iff, hjudged.eq_ok_iff, hknown⟩

/-- A login cut short lacks bytes, whatever length it announces. -/
example : (Message.decode (M := LoginRequest) [0xBA, 0xBA, 0, 0, 0x37, 0]).map Prod.snd =
    .error .shortBuffer := rfl

/-- A cancellation cut short behind a reserved bit is rejected all the
same. -/
example : (Message.decode (M := CancelOrder) ([0xBA, 0xBA, 33, 0, 0x39] ++ List.replicate 25 0 ++
    [0b11])).map Prod.snd = .error .badValue := rfl

end OrderEntry

end TradeWire
