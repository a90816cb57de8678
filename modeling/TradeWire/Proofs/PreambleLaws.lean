import Mathlib.Logic.Equiv.Prod
import TradeWire.OrderEntry.Preamble
import TradeWire.Proofs.Lawful
/-!
# Order entry — what a preamble adds to a message

A framed decoder reads a preamble and a body, and accepts them together
where the length the preamble announces is the one they have. Writing
computes that length from the record before the first field. So the two
directions agree on a whole message once they agree on its body, and the
length counted is that of the fields: `lawful_of_framed`. They do where the
body is a row of fields, and where there is none.
-/

namespace TradeWire

-- Sums start from the zero of `Nat` itself, whatever algebra is in scope.
attribute [local instance (high)] Zero.ofOfNat0

namespace OrderEntry

open Decoder Message

variable {α : Type}

/-- A rule is checked before anything is written. -/
theorem guard_bind (p : Prop) [Decidable p] (x : Option α) :
    (do guard p; x) = if p then x else none := by
  unfold guard
  split <;> rfl

/-- The bytes of a preamble that announces this length. -/
def Header.layout (header : Header) (type : UInt8) (length : UInt16) : Bytes :=
  Field.bytes .little startOfMessage ++ Field.bytes .little length ++ Field.bytes .little type ++
    Field.bytes .little header.matchingUnit ++ Field.bytes .little header.sequenceNumber

@[simp] theorem Header.length_layout (header : Header) (type : UInt8) (length : UInt16) :
    (header.layout type length).length = preambleSize := by
  simp only [layout, List.length_append, Field.length_bytes]
  rfl

/-- What is written before a message whose length fits. -/
theorem Header.fields?_eq_some (header : Header) (type : UInt8) {total : Nat}
    (h : preambleSize ≤ total) (hlt : total < UInt16.size) :
    ∃ fields, header.fields? type total = some fields ∧
      fields.flatten = header.layout type (UInt16.ofNat (total - markerSize)) := by
  refine ⟨_, if_pos ⟨Nat.le_trans (by decide) h, by omega⟩, ?_⟩
  simp [layout]

/-- And what is written with the fields behind it. -/
theorem Header.flatten_fields? (header : Header) (type : UInt8) {total : Nat}
    (h : preambleSize ≤ total) (hlt : total < UInt16.size) (rest : List Bytes) :
    (do let preamble ← header.fields? type total
        some (preamble ++ rest)).map List.flatten =
      some (header.layout type (UInt16.ofNat (total - markerSize)) ++ rest.flatten) := by
  obtain ⟨fields, hfields, hflatten⟩ := header.fields?_eq_some type h hlt
  rw [hfields, ← hflatten, ← List.flatten_append]
  rfl

/-- The length announced is the length of the message exactly where it
is written as such. -/
theorem announced_iff {total : Nat} (h : preambleSize ≤ total) (hlt : total < UInt16.size)
    (length : UInt16) :
    total = markerSize + length.toNat ↔ length = UInt16.ofNat (total - markerSize) := by
  have hmarker : markerSize ≤ total := Nat.le_trans (by decide) h
  constructor
  · intro htotal
    rw [htotal, Nat.add_sub_cancel_left, UInt16.ofNat_toNat]
  · rintro rfl
    have hfits : total - markerSize < UInt16.size := by omega
    rw [UInt16.toNat_ofNat_of_lt' hfits]
    omega

theorem reads_preamble (type : UInt8) (chunk : Bytes) (length : UInt16) (header : Header) :
    (preamble type).Reads chunk (length, header) ↔ chunk = header.layout type length := by
  simp only [preamble, marker, bind_assoc, reads_field_bind, reads_require_bind, reads_pure,
    Prod.mk.injEq, Header.layout, List.append_assoc]
  constructor
  · rintro ⟨_, _, rfl, rfl, _, _, rfl, _, _, rfl, rfl, _, _, rfl, _, _, rfl, rfl, rfl, rfl⟩
    simp
  · rintro rfl
    exact ⟨_, _, rfl, rfl, _, _, rfl, _, _, rfl, rfl, _, _, rfl, _, _, by simp, rfl, rfl, rfl⟩

/-- **A framed decoder reads a preamble and a body** that are together as
long as the preamble announces. -/
theorem reads_framed (type : UInt8) (body : Header → Decoder .little α) (chunk : Bytes) (v : α) :
    (framed type body).Reads chunk v ↔
      ∃ header rest, ∃ length : UInt16, chunk = header.layout type length ++ rest ∧
        (body header).Reads rest v ∧ preambleSize + rest.length = markerSize + length.toNat := by
  have hinner : ∀ (taken : Bytes) (length : UInt16) (w : α),
      (preamble type >>= fun found => body found.2 >>= fun value =>
          pure (found.1, value)).Reads taken (length, w) ↔
        ∃ header rest, taken = header.layout type length ++ rest ∧ (body header).Reads rest w := by
    intro taken length w
    simp only [reads_bind, reads_pure, Prod.mk.injEq]
    constructor
    · rintro ⟨⟨_, header⟩, before, _, rfl, hpre, _, rest, _, rfl, hbody, rfl, rfl, rfl⟩
      rw [reads_preamble] at hpre
      exact ⟨header, rest, by rw [hpre, List.append_nil], hbody⟩
    · rintro ⟨header, rest, rfl, hbody⟩
      exact ⟨(length, header), _, rest, rfl, (reads_preamble _ _ _ _).2 rfl, w, rest, [],
        (List.append_nil rest).symm, hbody, rfl, rfl, rfl⟩
  unfold framed
  rw [reads_bind]
  constructor
  · rintro ⟨⟨⟨length, w⟩, total⟩, taken, after, rfl, hmeasured, hafter⟩
    obtain ⟨htaken, htotal⟩ := (reads_measured _ _ _).1 hmeasured
    obtain ⟨header, rest, rfl, hbody⟩ := (hinner _ _ _).1 htaken
    obtain ⟨heq, rfl, rfl⟩ := (reads_require_bind _ _ _ _).1 hafter
    refine ⟨header, rest, length, by simp, hbody, ?_⟩
    simp only at htotal heq
    rw [← heq, htotal, List.length_append, Header.length_layout]
  · rintro ⟨header, rest, length, rfl, hbody, heq⟩
    refine ⟨((length, v), preambleSize + rest.length), _, [], (List.append_nil _).symm,
      (reads_measured _ _ _).2 ⟨(hinner _ _ _).2 ⟨header, rest, rfl, hbody⟩, ?_⟩,
      (reads_require_bind _ _ _ _).2 ⟨heq, rfl, rfl⟩⟩
    simp

theorem frugal_framed (type : UInt8) {body : Header → Decoder .little α}
    (h : ∀ header, (body header).Frugal) : (framed type body).Frugal := by
  refine frugal_bind (frugal_measured (frugal_bind ?_ fun _ => frugal_bind (h _) fun _ => ?_))
    fun _ => ?_
  · simp [preamble, marker, -bind_pure_comp]
  · exact frugal_pure _
  · simp [-bind_pure_comp]

/-- **A message is lawful when its body is.** The body of a record is
what stands behind its preamble; reading it under a header makes the
canonical records with that header, from their bodies. -/
theorem lawful_of_framed {M : Type} [Message .little M] {type : UInt8}
    {reader : M → Header → Decoder .little M} (header : M → Header) (body : M → Bytes)
    (hrefill : ∀ prior : M, refill prior = framed type (reader prior))
    (hlayout : ∀ record : M, Message.Encodable record → layout? record =
      some ((header record).layout type (UInt16.ofNat (encodedLen record - markerSize)) ++
        body record))
    (hrules : ∀ record : M, (layout? record).isSome → Message.Encodable record)
    (hlength : ∀ record : M, Message.Encodable record →
      encodedLen record = preambleSize + (body record).length ∧ encodedLen record < UInt16.size)
    (hcanonical : ∀ record : M, layout? (canonical record) = layout? record ∧
      canonical (canonical record) = canonical record)
    (hreads : ∀ (prior record : M) (h : Header) (chunk : Bytes),
      (reader prior h).Reads chunk record ↔
        header record = h ∧ Message.Encodable record ∧ canonical record = record ∧
          chunk = body record)
    (hfrugal : ∀ (prior : M) (h : Header), (reader prior h).Frugal) : LawfulMessage .little M where
  isSome_layout? record := by
    refine ⟨hrules record, fun h => ?_⟩
    rw [hlayout record h]
    rfl
  length_layout {record chunk} h := by
    have hencodable := hrules record (by rw [h]; rfl)
    rw [hlayout record hencodable] at h
    rw [← Option.some.inj h, List.length_append, Header.length_layout,
      (hlength record hencodable).1]
  layout?_canonical record := (hcanonical record).1
  canonical_canonical record := (hcanonical record).2
  reads_refill prior record chunk := by
    rw [hrefill, reads_framed]
    constructor
    · rintro ⟨_, _, length, rfl, hbody, hannounced⟩
      obtain ⟨rfl, hencodable, hcanon, rfl⟩ := (hreads _ _ _ _).1 hbody
      obtain ⟨hlen, hlt⟩ := hlength record hencodable
      rw [← hlen] at hannounced
      rw [announced_iff (by omega) hlt] at hannounced
      exact ⟨hcanon, by rw [hlayout record hencodable, hannounced]⟩
    · rintro ⟨hcanon, h⟩
      have hencodable := hrules record (by rw [h]; rfl)
      obtain ⟨hlen, hlt⟩ := hlength record hencodable
      rw [hlayout record hencodable] at h
      refine ⟨header record, body record, _, (Option.some.inj h).symm,
        (hreads _ _ _ _).2 ⟨rfl, hencodable, hcanon, rfl⟩, ?_⟩
      rw [← hlen]
      exact (announced_iff (by omega) hlt _).2 rfl
  frugal_refill prior := by
    rw [hrefill]
    exact frugal_framed type (hfrugal prior)

/-! ## Messages of one length -/

/-- **A preamble and a row of fields are a lawful message,** if they are all
there is to a record. -/
theorem lawful_of_row {M τ : Type} [Message .little M] (row : Row τ) (parts : M ≃ Header × τ)
    (hrefill : ∀ prior : M, refill prior = framed (Message.type M) fun header => do
      let values ← row.decoder .little
      pure (parts.symm (header, values)))
    (hfields : ∀ record : M, fields? record = do
      let preamble ← (parts record).1.fields? (Message.type M) (encodedLen record)
      some (preamble ++ row.fields .little (parts record).2))
    (hsize : ∀ record : M, encodedLen record = preambleSize + row.widths.sum)
    (hfits : preambleSize + row.widths.sum < UInt16.size)
    (hencodable : ∀ record : M, Message.Encodable record)
    (hcanonical : ∀ record : M, canonical record = record) : LawfulMessage .little M := by
  refine lawful_of_framed (fun record => (parts record).1)
    (fun record => (row.fields .little (parts record).2).flatten) hrefill
    ?layout (fun record _ => hencodable record) ?length ?canonical ?reads ?frugal
  case layout =>
    intro record _
    rw [layout?, hfields]
    refine (parts record).1.flatten_fields? _ ?_ ?_ _
    · exact hsize record ▸ Nat.le_add_right _ _
    · exact hsize record ▸ hfits
  case length =>
    intro record _
    rw [hsize, row.length_flatten_fields]
    exact ⟨rfl, hfits⟩
  case canonical =>
    intro record
    rw [hcanonical, hcanonical]
    exact ⟨rfl, rfl⟩
  case reads =>
    intro prior record header chunk
    simp only [Row.reads_map, Equiv.eq_symm_apply, hencodable, hcanonical, true_and]
    constructor
    · rintro ⟨values, rfl, hparts⟩
      rw [hparts]
      exact ⟨rfl, rfl⟩
    · rintro ⟨rfl, rfl⟩
      exact ⟨(parts record).2, rfl, rfl⟩
  case frugal =>
    exact fun _ header => row.frugal_map fun values => parts.symm (header, values)

/-- **So is a preamble alone.** -/
theorem lawful_of_header {M : Type} [Message .little M] (header : M ≃ Header)
    (hrefill : ∀ prior : M, refill prior =
      framed (Message.type M) fun found => pure (header.symm found))
    (hfields : ∀ record : M, fields? record =
      (header record).fields? (Message.type M) (encodedLen record))
    (hsize : ∀ record : M, encodedLen record = preambleSize)
    (hencodable : ∀ record : M, Message.Encodable record)
    (hcanonical : ∀ record : M, canonical record = record) : LawfulMessage .little M := by
  have hnothing : ∀ preamble : Option (List Bytes),
      (do let fields ← preamble; some (fields ++ Row.nil.fields .little ())) = preamble := by
    intro preamble
    simp [Row.fields]
  exact lawful_of_row .nil (header.trans (Equiv.prodPUnit Header).symm) hrefill
    (fun record => (hfields record).trans (hnothing _).symm) hsize (by decide) hencodable hcanonical

end OrderEntry

end TradeWire
