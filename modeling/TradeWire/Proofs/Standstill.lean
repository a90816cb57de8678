import TradeWire.Proofs.FeedGrammar
import TradeWire.Proofs.Stopping
/-!
# Standstill — where a message that cannot be read is left

Whoever reads from the middle of a buffer goes on from where a message
that failed has left the source, so that place is as much an answer as the
fault is. A value is judged as soon as it has been read, and only the
length behind the whole message, so a fault says how far the source has
come. Where bytes are lacking, the fields in front are the ones that were
there, with one exception: the legs of a cross are asked for together, and
without room for all of them none is read.

This is not how writing stops, which gets over every field that fits, in
the legs as well.
-/

namespace TradeWire

-- Sums start from the zero of `Nat` itself, whatever algebra is in scope.
attribute [local instance (high)] Zero.ofOfNat0

namespace OrderEntry

open Decoder Message

variable {k : Kind} {bytes : Bytes}

/-! ## The fields that bytes show -/

namespace Kind

/-- Which optional fields are shown, where the bytes reach behind the
bitmap. -/
def shown? (k : Kind) (bytes : Bytes) : Option (Nat → Bool) := (k.bitmap? bytes).map Nat.testBit

/-- **How many legs a cross has,** where the bytes reach behind its count. -/
def count? : Kind → Bytes → Option Nat
  | newOrderCross, bytes => do
    let bitmap ← newOrderCross.bitmap? bytes
    let optional := (if bitmap.testBit 0 then 8 else 0) + (if bitmap.testBit 1 then 1 else 0) +
      if bitmap.testBit 2 then 4 else 0
    numberAt? bytes (46 + optional) 1
  | loginRequest, _ | logoutRequest, _ | clientHeartbeat, _ | cancelOrder, _ => none

/-- The widths of the fields in front of the legs, as far as the bytes
tell. -/
def frontWidthsIn (k : Kind) (bytes : Bytes) : List Nat := k.frontWidths (k.shown? bytes)

/-- **The widths of the fields of the message that begins here,** as far as
the bytes tell. -/
def widthsIn (k : Kind) (bytes : Bytes) : List Nat :=
  k.widths (k.shown? bytes) ((k.count? bytes).getD 0)

end Kind

theorem sum_legWidths (shown : Nat → Bool) :
    (legWidths shown).sum = if shown 9 then 41 else 25 := by
  unfold legWidths
  cases shown 9 <;> rfl

/-- Legs in a row are as long as their number says. -/
theorem sum_flatten_replicate (n : Nat) (widths : List Nat) :
    (List.replicate n widths).flatten.sum = n * widths.sum := by
  induction n with
  | zero => exact (Nat.zero_mul _).symm
  | succ n ih =>
    rw [List.replicate_succ, List.flatten_cons, List.sum_append, ih, Nat.succ_mul, Nat.add_comm]

/-- In front of its legs a cross has its fixed fields, those it shows, and
the count. -/
theorem sum_frontWidths_newOrderCross (shown : Nat → Bool) :
    (Kind.newOrderCross.frontWidths (some shown)).sum =
      47 + ((if shown 0 then 8 else 0) + (if shown 1 then 1 else 0) +
        if shown 2 then 4 else 0) := by
  simp only [Kind.frontWidths, Kind.shownWidths, Option.map_some, Option.getD_some]
  cases shown 0 <;> cases shown 1 <;> cases shown 2 <;> rfl

/-- A message is as long as its fields. -/
theorem sum_widthsIn {n : Nat} (h : k.need? bytes = some n) : (k.widthsIn bytes).sum = n := by
  cases k with
  | loginRequest | logoutRequest | clientHeartbeat =>
    cases h
    rfl
  | cancelOrder =>
    obtain ⟨bitmap, hbitmap, hn⟩ := Option.bind_eq_some_iff.1 h
    cases hn
    simp only [Kind.widthsIn, Kind.shown?, Kind.widths, Kind.frontWidths, Kind.shownWidths,
      hbitmap, Option.map_some, Option.getD_some]
    cases bitmap.testBit 0 <;> rfl
  | newOrderCross =>
    obtain ⟨bitmap, hbitmap, hn⟩ := Option.bind_eq_some_iff.1 h
    obtain ⟨count, hcount, hn⟩ := Option.bind_eq_some_iff.1 hn
    cases hn
    have hshown : Kind.newOrderCross.shown? bytes = some bitmap.testBit := by
      rw [Kind.shown?, hbitmap]
      rfl
    have hlegs : Kind.newOrderCross.count? bytes = some count := by
      rw [Kind.count?, hbitmap]
      exact hcount
    rw [Kind.widthsIn, hshown, hlegs, Kind.widths, List.sum_append,
      sum_frontWidths_newOrderCross, Option.map_some, Option.getD_some, Option.getD_some,
      sum_flatten_replicate, sum_legWidths]

/-! ## Where a message may be left -/

/-- **Where a source is left** behind the first of some bytes, that are no
message of a kind, and under which fault. -/
inductive StandsAt (k : Kind) (bytes : Bytes) : Fault → Nat → Prop where
  /-- Behind the marker, which is another. -/
  | marker (there : 2 ≤ bytes.length) (wrong : bytes.take 2 ≠ [0xBA, 0xBA]) :
    StandsAt k bytes .badValue 2
  /-- Behind the type, which is another. -/
  | type (marker : bytes.take 2 = [0xBA, 0xBA]) (there : 5 ≤ bytes.length)
    (wrong : bytes[4]? ≠ some (Message.type k.Record)) : StandsAt k bytes .badValue 5
  /-- Behind the bitmap, which has a bit that stands for no field. -/
  | reserved (announces : Announces k bytes) (wrong : k.Reserved bytes) :
    StandsAt k bytes .badValue (preambleWidths ++ k.fixedWidths).sum
  /-- Behind the message, which announces another length. -/
  | length (announces : Announces k bytes) (defined : ¬ k.Reserved bytes)
    (need : k.need? bytes = some (k.widthsIn bytes).sum)
    (there : (k.widthsIn bytes).sum ≤ bytes.length)
    (wrong : declaredSize bytes ≠ (k.widthsIn bytes).sum) :
    StandsAt k bytes .badValue (k.widthsIn bytes).sum
  /-- In front of the first field that is not all there, where no legs are
  to come, or it is not known how many. -/
  | field (sound : ¬ Rejects k bytes) (lacks : ∀ n, k.need? bytes = some n → bytes.length < n)
    (uncounted : k.count? bytes = none) {d : Nat}
    (furthest : Furthest (k.widthsIn bytes) bytes.length d) : StandsAt k bytes .shortBuffer d
  /-- In front of all the legs, where they are not all there. -/
  | legs (sound : ¬ Rejects k bytes) {count : Nat} (counted : k.count? bytes = some count)
    (lacks : bytes.length < (k.widthsIn bytes).sum) :
    StandsAt k bytes .shortBuffer (k.frontWidthsIn bytes).sum

/-! ## The preamble -/

section Preamble

variable {α : Type} {widths : List Nat} {accepted : Nat → Prop}

/-- **A preamble** is in order, or the source is left behind the part that is
not. -/
theorem leaves_preamble_bind {f : UInt16 × Header → Decoder .little α}
    (h : preambleSize ≤ bytes.length → Announces k bytes → ∀ found,
      Leaves bytes preambleSize widths (StandsAt k bytes .badValue) accepted
        ((f found).run ⟨bytes, preambleSize⟩)) :
    Leaves bytes 0 (preambleWidths ++ widths) (StandsAt k bytes .badValue) accepted
      ((preamble (Message.type k.Record) >>= f).run ⟨bytes, 0⟩) := by
  simp only [preamble, marker, bind_assoc, pure_bind]
  refine leaves_field_bind (show 0 + Field.size UInt16 = 2 from rfl) (Nat.zero_le _)
    fun htwo found hfound => ?_
  have hmarker : bytes.take 2 = [0xBA, 0xBA] ↔ found = startOfMessage := by
    have htake : bytes.take 2 = Field.bytes .little found := hfound.symm
    rw [htake, show [0xBA, 0xBA] = Field.bytes .little startOfMessage from rfl, Field.bytes_inj]
  refine leaves_require_bind _ (fun hne => .marker htwo fun h => hne (hmarker.1 h)) fun heq => ?_
  replace hmarker := hmarker.2 heq
  refine leaves_field_bind (show 2 + Field.size UInt16 = 4 from rfl) htwo fun hfour length _ => ?_
  refine leaves_field_bind (show 4 + Field.size UInt8 = 5 from rfl) hfour
    fun hfive type hbytes => ?_
  have htype : bytes[4]? = some type := by
    rw [Field.bytes_uint8, Field.size_uint8, take_one_drop hfive] at hbytes
    rw [List.getElem?_eq_getElem hfive, List.cons.inj hbytes |>.1]
  refine leaves_require_bind _ (fun hne => .type hmarker hfive fun h => ?_) fun heq => ?_
  · exact hne (Option.some.inj (htype.symm.trans h))
  · refine leaves_field_bind (show 5 + Field.size UInt8 = 6 from rfl) hfive fun hsix _ _ => ?_
    refine leaves_field_bind (show 6 + Field.size UInt32 = preambleSize from rfl) hsix
      fun hten _ _ => ?_
    exact h hten ⟨hmarker, heq ▸ htype⟩ _

end Preamble

/-! ## The bodies -/

section Bodies

variable {α : Type} {widths : List Nat}

/-- **A message is left as its parts are,** or behind it where it announces
another length. -/
theorem leaves_framed {body : Header → Decoder .little α}
    (h : preambleSize ≤ bytes.length → Announces k bytes → ∀ header,
      Leaves bytes preambleSize widths (StandsAt k bytes .badValue) (Complete k bytes)
        ((body header).run ⟨bytes, preambleSize⟩)) :
    Leaves bytes 0 (preambleWidths ++ widths) (StandsAt k bytes .badValue) (fun _ => True)
      ((framed (Message.type k.Record) body).run ⟨bytes, 0⟩) := by
  have hparts := leaves_preamble_bind (f := fun found => body found.2)
    fun hten hannounces found => h hten hannounces found.2
  rw [run_bind] at hparts
  rw [run_framed, readFramed]
  rcases hpreamble : (preamble (Message.type k.Record)).run ⟨bytes, 0⟩ with
    ⟨_ | ⟨length, header⟩, t⟩
  · rw [hpreamble] at hparts
    exact hparts.of_error
  · have hdeclared := declaredSize_of_run hpreamble
    rw [hpreamble] at hparts
    dsimp only at hparts ⊢
    rcases hbody : (body header).run t with ⟨_ | value, u⟩
    · rw [hbody] at hparts
      exact hparts.of_error
    · rw [hbody] at hparts
      dsimp only
      split
      · exact .accepted trivial
      · next hne =>
        obtain ⟨hcomplete⟩ := hparts
        have hsum := sum_widthsIn hcomplete.need
        have hother : declaredSize bytes ≠ (k.widthsIn bytes).sum := by
          rw [hsum, hdeclared]
          exact fun heq => hne heq.symm
        refine .rejected ?_
        rw [← hsum]
        exact .length hcomplete.announces hcomplete.defined (hsum ▸ hcomplete.need)
          (hsum ▸ hcomplete.there) hother

/-- A message that is a preamble only. -/
theorem leaves_header (value : Header → α) (hbitmap : k.bitmap? bytes = none)
    (hneed : k.need? bytes = some preambleSize) :
    Leaves bytes 0 (preambleWidths ++ []) (StandsAt k bytes .badValue) (fun _ => True)
      ((framed (Message.type k.Record) fun header => pure (value header)).run ⟨bytes, 0⟩) := by
  refine leaves_framed fun hten hannounces header => leaves_pure _ ?_
  exact ⟨hannounces, not_reserved_of_bitmap? hbitmap, hneed, hten⟩

theorem leaves_loginRequest (prior : LoginRequest) (bytes : Bytes) :
    Leaves bytes 0 (Kind.loginRequest.frontWidthsIn bytes)
      (StandsAt .loginRequest bytes .badValue) (fun _ => True)
      ((Message.refill prior).run ⟨bytes, 0⟩) := by
  refine leaves_framed (k := .loginRequest) fun hten hannounces header => ?_
  refine leaves_of_takes (?_ : Takes _ [4, 4, 20]) hten fun hthere => ?_
  · simp [-bind_pure_comp]
  · exact ⟨hannounces, not_reserved_of_bitmap? rfl, rfl, hthere⟩

/-- Which fields a presence set shows. -/
theorem shown?_of_presence {w : Width} {presence : Presence w}
    (hbitmap : k.bitmap? bytes = some (ByteOrder.little.load (Field.bytes .little presence))) :
    k.shown? bytes = some presence.contains := by
  rw [Kind.shown?, hbitmap, Option.map_some]
  exact congrArg some (funext (testBit_load_bytes presence))

/-- **A bitmap** is in order, or the source is left behind it. -/
theorem leaves_presence_bind {w : Width} {presence : Presence w} {f : Unit → Decoder .little α}
    {start : Nat} {accepted : Nat → Prop} (hannounces : Announces k bytes)
    (hbitmap : k.bitmap? bytes = some (ByteOrder.little.load (Field.bytes .little presence)))
    (hstart : start = (preambleWidths ++ k.fixedWidths).sum)
    (h : ¬ k.Reserved bytes → Leaves bytes start widths (StandsAt k bytes .badValue) accepted
      ((f ()).run ⟨bytes, start⟩)) :
    Leaves bytes start widths (StandsAt k bytes .badValue) accepted
      ((require (presence.Within (.ofList k.optionalIndices)) >>= f).run ⟨bytes, start⟩) := by
  have hwithin := within_iff_not_reserved hbitmap
  refine leaves_require_bind _ (fun hnot => ?_) fun hp => h (hwithin.1 hp)
  rw [hstart]
  exact .reserved hannounces (Classical.not_not.1 fun hdefined => hnot (hwithin.2 hdefined))

theorem leaves_cancelOrder (prior : CancelOrder) (bytes : Bytes) :
    Leaves bytes 0 (Kind.cancelOrder.frontWidthsIn bytes)
      (StandsAt .cancelOrder bytes .badValue) (fun _ => True) (prior.refill.run ⟨bytes, 0⟩) := by
  refine leaves_framed (k := .cancelOrder) fun hten hannounces header => ?_
  refine leaves_field_bind (show 10 + Field.size (Octets 20) = 30 from rfl) hten fun hid _ _ => ?_
  refine leaves_field_bind (show 30 + Field.size (Presence .w8) = 31 from rfl) hid
    fun hthere presence hpresence => ?_
  have hbitmap : Kind.cancelOrder.bitmap? bytes =
      some (ByteOrder.little.load (Field.bytes .little presence)) :=
    numberAt?_of_bytes (show 30 + Field.size (Presence .w8) = 31 from rfl) hthere hpresence
  rw [shown?_of_presence hbitmap]
  refine leaves_presence_bind hannounces hbitmap rfl fun hdefined => ?_
  refine leaves_fieldIf_bind (Octets 4) (presence.contains 0) (List.append_nil _).symm rfl hthere
    fun hend _ => leaves_pure _ ?_
  refine ⟨hannounces, hdefined, ?_, hend⟩
  rw [Kind.need?, hbitmap, ← testBit_load_bytes]
  rfl

theorem leaves_newOrderCross (prior : NewOrderCross) (bytes : Bytes) :
    Leaves bytes 0 (Kind.newOrderCross.frontWidthsIn bytes)
      (StandsAt .newOrderCross bytes .badValue) (fun _ => True) (prior.refill.run ⟨bytes, 0⟩) := by
  refine leaves_framed (k := .newOrderCross) fun hten hannounces header => ?_
  simp only [NewOrderCross.refillHead, bind_assoc, pure_bind]
  refine leaves_field_bind (show 10 + Field.size (Octets 20) = 30 from rfl) hten fun hid _ _ => ?_
  refine leaves_field_bind (show 30 + Field.size UInt8 = 31 from rfl) hid fun htype _ _ => ?_
  refine leaves_field_bind (show 31 + Field.size UInt8 = 32 from rfl) htype
    fun hprioritization _ _ => ?_
  refine leaves_field_bind (show 32 + Field.size UInt64 = 40 from rfl) hprioritization
    fun hprice _ _ => ?_
  refine leaves_field_bind (show 40 + Field.size UInt32 = 44 from rfl) hprice fun hqty _ _ => ?_
  refine leaves_field_bind (show 44 + Field.size (Presence .w16) = 46 from rfl) hqty
    fun hthere presence hpresence => ?_
  have hbitmap : Kind.newOrderCross.bitmap? bytes =
      some (ByteOrder.little.load (Field.bytes .little presence)) :=
    numberAt?_of_bytes (show 44 + Field.size (Presence .w16) = 46 from rfl) hthere hpresence
  have hoffset : 46 + (if presence.contains 0 then Field.size (Octets 8) else 0) +
      (if presence.contains 1 then Field.size UInt8 else 0) +
      (if presence.contains 2 then Field.size (Octets 4) else 0) = countOffset presence := by
    simp only [countOffset, Nat.add_assoc]
    rfl
  rw [shown?_of_presence hbitmap]
  refine leaves_presence_bind hannounces hbitmap rfl fun hdefined => ?_
  refine leaves_fieldIf_bind (Octets 8) (presence.contains 0) rfl rfl hthere fun hsymbol _ => ?_
  refine leaves_fieldIf_bind UInt8 (presence.contains 1) rfl rfl hsymbol fun hcapacity _ => ?_
  refine leaves_fieldIf_bind (Octets 4) (presence.contains 2) rfl hoffset hcapacity
    fun hfirm _ => ?_
  have hbehind : countOffset presence + Field.size UInt8 = countOffset presence + 1 := rfl
  refine leaves_field_bind hbehind hfirm fun hcount count hbytes => ?_
  -- no width is left for the legs: without room for all of them, the source
  -- stays behind the count
  refine leaves_ensure_bind (NewOrderCross.fixed_refillGroups _ count) hcount fun hlegs => ?_
  have hnumber := numberAt?_of_bytes hbehind hcount hbytes
  rw [Field.bytes_uint8] at hnumber
  refine ⟨hannounces, hdefined, ?_, hlegs⟩
  rw [need?_of_presence hbitmap, show numberAt? bytes (countOffset presence) 1 = _ from hnumber]
  rfl

/-- **Every order-entry decoder leaves its source so,** over whatever
record. -/
theorem leaves_refill : ∀ (k : Kind) (prior : k.Record) (bytes : Bytes),
    Leaves bytes 0 (k.frontWidthsIn bytes) (StandsAt k bytes .badValue) (fun _ => True)
      ((Message.refill prior).run ⟨bytes, 0⟩)
  | .loginRequest, prior, bytes => leaves_loginRequest prior bytes
  | .logoutRequest, (prior : LogoutRequest), _ =>
    leaves_header (k := .logoutRequest) (fun header => { prior with header }) rfl rfl
  | .clientHeartbeat, (prior : ClientHeartbeat), _ =>
    leaves_header (k := .clientHeartbeat) (fun header => { prior with header }) rfl rfl
  | .cancelOrder, prior, bytes => leaves_cancelOrder prior bytes
  | .newOrderCross, prior, bytes => leaves_newOrderCross prior bytes

end Bodies

/-! ## Where a message is left -/

/-- Where no legs are known of, all fields are in front of them. -/
theorem widthsIn_of_uncounted (h : k.count? bytes = none) :
    k.widthsIn bytes = k.frontWidthsIn bytes := by
  rw [Kind.widthsIn, h, Kind.frontWidthsIn, Kind.widths]
  cases k.shown? bytes <;> exact List.append_nil _

/-- Behind its count, a cross tells how long it is. -/
theorem need?_of_count? {count : Nat} (h : k.count? bytes = some count) :
    (k.frontWidthsIn bytes).sum ≤ bytes.length ∧
      k.need? bytes = some (k.widthsIn bytes).sum := by
  cases k with
  | loginRequest | logoutRequest | clientHeartbeat | cancelOrder => cases h
  | newOrderCross =>
    obtain ⟨bitmap, hbitmap, hcount⟩ := Option.bind_eq_some_iff.1 h
    constructor
    · have hthere := (Option.ite_none_right_eq_some.1 hcount).1
      rw [Kind.frontWidthsIn, Kind.shown?, hbitmap, Option.map_some,
        sum_frontWidths_newOrderCross]
      omega
    · have hneed : (Kind.newOrderCross.need? bytes).isSome := by
        rw [Kind.need?, hbitmap]
        simp only [Option.bind_eq_bind, Option.bind_some, hcount, Option.isSome_some]
      obtain ⟨n, hn⟩ := Option.isSome_iff_exists.1 hneed
      rw [hn, sum_widthsIn hn]

/-- **Where a message that cannot be read is left,** over whatever record. -/
theorem standsAt_of_run (prior : k.Record) {fault : Fault} {t : Source .little}
    (h : (Message.refill prior).run ⟨bytes, 0⟩ = (.error fault, t)) :
    StandsAt k bytes fault t.pos := by
  have hleaves := leaves_refill k prior bytes
  rw [h] at hleaves
  cases hleaves with
  | rejected h => exact h
  | @short n _ hpos hfurthest =>
    have hshort : (Message.refill prior).decode bytes = .error .shortBuffer := by
      unfold Decoder.decode Source.ofBytes
      rw [h]
    have hjudged := judged_refill k prior bytes
    rw [reach_zero] at hjudged
    obtain ⟨hsound, hlacks⟩ := hjudged.eq_shortBuffer_iff.1 hshort
    rw [Nat.zero_add] at hpos
    rw [Nat.sub_zero] at hfurthest
    rw [hpos]
    cases hcount : k.count? bytes with
    | none =>
      refine .field hsound hlacks hcount ?_
      rw [widthsIn_of_uncounted hcount]
      exact hfurthest
    | some count =>
      obtain ⟨hfront, hneed⟩ := need?_of_count? hcount
      rw [hfurthest.eq_sum hfront]
      exact .legs hsound hcount (hlacks _ hneed)

/-- The fixed fields stand in front of the others. -/
theorem sum_fixedWidths_le (k : Kind) (bytes : Bytes) :
    (preambleWidths ++ k.fixedWidths).sum ≤ (k.frontWidthsIn bytes).sum := by
  rw [Kind.frontWidthsIn, Kind.frontWidths, List.sum_append, List.sum_append, List.sum_append]
  omega

/-- **No fault leaves a source in the middle of the legs.** -/
theorem StandsAt.le_or_eq {fault : Fault} {d : Nat} (h : StandsAt k bytes fault d) :
    d ≤ (k.frontWidthsIn bytes).sum ∨ d = (k.widthsIn bytes).sum := by
  have hfixed := sum_fixedWidths_le k bytes
  have hpreamble : preambleWidths.sum = 10 := rfl
  rw [List.sum_append] at hfixed
  cases h with
  | marker there wrong => exact .inl (by omega)
  | type marker there wrong => exact .inl (by omega)
  | reserved announces wrong => exact .inl (sum_fixedWidths_le k bytes)
  | length announces defined need there wrong => exact .inr rfl
  | field sound lacks uncounted furthest =>
    rw [widthsIn_of_uncounted uncounted] at furthest
    exact .inl furthest.le_sum
  | legs sound counted lacks => exact .inl (Nat.le_refl _)

end OrderEntry

/-! ## The feed -/

namespace Feed

open Decoder Message

variable {k : Kind} {bytes : Bytes}

/-- **Where a source is left** behind the first of some bytes, that are no
message of a kind of the feed, and under which fault. -/
inductive StandsAt (k : Kind) (bytes : Bytes) : Fault → Nat → Prop where
  /-- Behind the tag, which is another. -/
  | tag {type : UInt8} (there : bytes.head? = some type) (wrong : type ≠ Message.type k.Record) :
    StandsAt k bytes .badValue 1
  /-- In front of the first field that is not all there. -/
  | field (sound : ∀ type, bytes.head? = some type → type = Message.type k.Record)
    (lacks : bytes.length < k.widths.sum) {d : Nat}
    (furthest : Furthest k.widths bytes.length d) : StandsAt k bytes .shortBuffer d

/-- **Every decoder of the feed leaves its source** behind the tag, or in
front of a field. -/
theorem leaves_refill (k : Kind) (prior : k.Record) (bytes : Bytes) :
    Leaves bytes 0 k.widths (StandsAt k bytes .badValue) (fun _ => True)
      ((refill prior).run ⟨bytes, 0⟩) := by
  rw [k.refill_eq, k.widths_eq, tag, bind_assoc]
  refine leaves_field_bind (show 0 + Field.size UInt8 = 1 from rfl) (Nat.zero_le _)
    fun hone found hfound => ?_
  have hhead : bytes.head? = some found := by
    rw [Field.bytes_uint8] at hfound
    cases bytes with
    | nil => cases hfound
    | cons first rest => exact congrArg List.head? hfound.symm
  refine leaves_require_bind _ (fun hne => .tag hhead hne) fun _ => ?_
  exact leaves_of_takes (takes_row k.row k.parts.symm) hone fun _ => trivial

/-- A message of the feed that lacks bytes shows no other tag. -/
theorem sound_of_reach (prior : k.Record)
    (h : (refill prior).reach bytes 0 = .error .shortBuffer) :
    (∀ type, bytes.head? = some type → type = Message.type k.Record) ∧
      bytes.length < k.widths.sum := by
  have hsum : k.widths.sum = k.size := by cases k <;> rfl
  rw [reach_refill] at h
  rw [hsum]
  cases bytes with
  | nil =>
    refine ⟨fun type htype => (nomatch htype), ?_⟩
    cases k <;> decide
  | cons first rest =>
    rw [List.head?_cons] at h ⊢
    dsimp only at h
    split at h
    · cases h
    · next heq =>
      split at h
      · cases h
      · next hlacks =>
        refine ⟨fun type htype => ?_, Nat.lt_of_not_le hlacks⟩
        rw [← Option.some.inj htype]
        exact Classical.not_not.1 heq

/-- **Where a message of the feed that cannot be read is left,** over
whatever record. -/
theorem standsAt_of_run (prior : k.Record) {fault : Fault} {t : Source .big}
    (h : (refill prior).run ⟨bytes, 0⟩ = (.error fault, t)) : StandsAt k bytes fault t.pos := by
  have hleaves := leaves_refill k prior bytes
  rw [h] at hleaves
  cases hleaves with
  | rejected h => exact h
  | short hpos hfurthest =>
    obtain ⟨hsound, hlacks⟩ :=
      sound_of_reach prior ((reach_eq_error_iff _ _ _ _).2 (congrArg Prod.fst h))
    rw [hpos, Nat.zero_add]
    exact .field hsound hlacks hfurthest

end Feed

namespace Family

open Message

/-- **Where a source is left** behind the first of some bytes, that are no
message of a kind, and under which fault. -/
def StandsAt : (f : Family) → f.Kind → Bytes → Fault → Nat → Prop
  | orderEntry, k => OrderEntry.StandsAt k
  | feed, k => Feed.StandsAt k

/-- So far on is inside the legs: behind their first byte, and in front of
their last. -/
def InLegs : (f : Family) → f.Kind → Bytes → Nat → Prop
  | orderEntry, k, bytes, d =>
    (OrderEntry.Kind.frontWidthsIn k bytes).sum < d ∧ d < (OrderEntry.Kind.widthsIn k bytes).sum
  | feed, _, _, _ => False

/-- **Where a message that cannot be read leaves its source.** Under a value
that breaks a rule that is behind the marker, the type, the tag or the
bitmap, or behind the whole message where the length announced is another.
Where bytes are lacking it is in front of the first field that is not all
there, and in front of all the legs of a cross, however many of them are;
so it is never in the middle of the legs. -/
theorem standstill (f : Family) (k : f.Kind) (prior : f.Record k) (s : Source f.order)
    (hs : s.pos ≤ s.bytes.length) (fault : Fault)
    (hfault : ((refill prior).run s).1 = .error fault) :
    ∃ d, ((refill prior).run s).2 = s.advance d ∧ f.StandsAt k (s.bytes.drop s.pos) fault d ∧
      ¬ f.InLegs k (s.bytes.drop s.pos) d := by
  have hprepend := (refill prior).run_eq_prepend hs
  have hbytes := (refill prior).bytes_run (.ofBytes (s.bytes.drop s.pos))
  rcases hrun : (refill prior).run (.ofBytes (s.bytes.drop s.pos)) with ⟨result, t⟩
  rw [hrun] at hprepend hbytes
  rw [hprepend] at hfault ⊢
  obtain rfl : result = .error fault := hfault
  have hfront : (s.bytes.take s.pos).length = s.pos := List.length_take_of_le hs
  refine ⟨t.pos, ?_, ?_⟩
  · unfold Source.prepend Source.advance
    rw [show t.bytes = s.bytes.drop s.pos from hbytes, List.take_append_drop, hfront]
  · cases f with
    | orderEntry =>
      have hstands := OrderEntry.standsAt_of_run (k := k) prior hrun
      refine ⟨hstands, fun hin => ?_⟩
      obtain ⟨hbehind, hahead⟩ : _ < t.pos ∧ t.pos < _ := hin
      rcases hstands.le_or_eq with hle | heq
      · omega
      · omega
    | feed => exact ⟨Feed.standsAt_of_run (k := k) prior hrun, id⟩

/-- A cross of two legs behind two other bytes, cut short in the second. -/
def cutInLegs : Bytes :=
  [7, 7] ++ ([0xBA, 0xBA, 95, 0, 0x41] ++ List.replicate 41 0 ++ [2] ++ List.replicate 26 1)

theorem standstill_cutInLegs :
    2 ≤ cutInLegs.length ∧
      ((refill ({} : OrderEntry.NewOrderCross)).run ⟨cutInLegs, 2⟩).1 = .error .shortBuffer ∧
      ((refill ({} : OrderEntry.NewOrderCross)).run ⟨cutInLegs, 2⟩).2 = ⟨cutInLegs, 2 + 47⟩ ∧
      orderEntry.StandsAt .newOrderCross (cutInLegs.drop 2) .shortBuffer 47 := by
  have hwithin : 2 ≤ cutInLegs.length := Nat.le_add_left 2 _
  have hrun : (refill ({} : OrderEntry.NewOrderCross)).run ⟨cutInLegs, 2⟩ =
      (.error .shortBuffer, ⟨cutInLegs, 2 + 47⟩) := by cbv
  have hfault := congrArg Prod.fst hrun
  obtain ⟨d, hafter, hstands, -⟩ := standstill orderEntry .newOrderCross
    ({} : OrderEntry.NewOrderCross) ⟨cutInLegs, 2⟩ hwithin .shortBuffer hfault
  have hpos : 2 + 47 = 2 + d :=
    congrArg Source.pos ((congrArg Prod.snd hrun).symm.trans hafter)
  obtain rfl : 47 = d := Nat.add_left_cancel hpos
  exact ⟨hwithin, hfault, congrArg Prod.snd hrun, hstands⟩

end Family

end TradeWire
