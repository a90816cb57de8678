import TradeWire.Decoder
/-!
# Reading — which bytes make which value

`Reads` says of a decoder which bytes it takes to make which value, and
nothing about where they stand or what follows them. It splits along a
decoder's own parts, one equivalence each, so what a message reads is
computed from its fields.

A run that succeeds has read what it took (`reads_of_run`). The converse
needs a decoder that uses all the room it asks for: one that does not
could fail although its bytes are there. Such a decoder is `Frugal`, and
then a decode succeeds exactly on the bytes it reads
(`decode_eq_ok_iff`).
-/

namespace TradeWire

namespace Decoder

variable {order : ByteOrder} {α β : Type}

/-- **Taking exactly these bytes makes this value.** Room is asked for,
not taken, and does not count. -/
def Reads : Decoder order α → Bytes → α → Prop
  | done value, chunk, v => chunk = [] ∧ v = value
  | reject, _, _ => False
  | take n next, chunk, v =>
    ∃ (octets : Octets n) (rest : Bytes),
      chunk = octets.toList ++ rest ∧ (next octets).Reads rest v
  | room _ next, chunk, v => next.Reads chunk v

/-- **All the room asked for is used:** whatever is read behind a request
for room takes at least as many bytes. -/
def Frugal : Decoder order α → Prop
  | done _ | reject => True
  | take _ next => ∀ octets, (next octets).Frugal
  | room n next => (∀ chunk v, next.Reads chunk v → n ≤ chunk.length) ∧ next.Frugal

/-! ## What the parts of a decoder read -/

@[simp] theorem reads_pure (value v : α) (chunk : Bytes) :
    (pure value : Decoder order α).Reads chunk v ↔ chunk = [] ∧ v = value := Iff.rfl

/-- Of two decoders one after another, each reads its own part. -/
theorem reads_bind (d : Decoder order α) (f : α → Decoder order β) (chunk : Bytes) (v : β) :
    (d >>= f).Reads chunk v ↔
      ∃ u before after, chunk = before ++ after ∧ d.Reads before u ∧ (f u).Reads after v := by
  change (d.bind f).Reads chunk v ↔ _
  induction d generalizing chunk with
  | done value =>
    simp only [bind, Reads]
    constructor
    · exact fun h => ⟨value, [], chunk, rfl, ⟨rfl, rfl⟩, h⟩
    · rintro ⟨_, _, after, rfl, ⟨rfl, rfl⟩, h⟩
      exact h
  | reject => simp [bind, Reads]
  | take n next ih =>
    simp only [bind, Reads, ih]
    constructor
    · rintro ⟨octets, -, rfl, u, before, after, rfl, hd, hf⟩
      exact ⟨u, octets.toList ++ before, after, by simp, ⟨octets, before, rfl, hd⟩, hf⟩
    · rintro ⟨u, -, after, rfl, ⟨octets, before, rfl, hd⟩, hf⟩
      exact ⟨octets, before ++ after, by simp, u, before, after, rfl, hd, hf⟩
  | room n next ih => exact ih chunk

/-- A field reads the bytes of its value. -/
@[simp] theorem reads_field [Field α] (chunk : Bytes) (v : α) :
    (field : Decoder order α).Reads chunk v ↔ chunk = Field.bytes order v := by
  constructor
  · rintro ⟨octets, -, rfl, rfl, rfl⟩
    simp [Field.bytes]
  · rintro rfl
    exact ⟨Field.encode order v, [], by simp [Field.bytes], rfl, by simp⟩

/-- A field that is absent reads nothing, and is blank. -/
theorem reads_fieldIf [Field α] [Inhabited α] (present : Bool) (chunk : Bytes) (v : α) :
    (fieldIf present : Decoder order α).Reads chunk v ↔
      chunk = (if present then Field.bytes order v else []) ∧ (present = false → v = default) := by
  cases present with
  | true => simp [fieldIf]
  | false => simp [fieldIf, Reads]

/-- An absent value is blank where making it blank changes nothing. -/
theorem shown_iff [Inhabited α] (present : Bool) (v : α) :
    (if present then v else default) = v ↔ (present = false → v = default) := by
  cases present with
  | true => simp
  | false => simp [eq_comm]

/-- Two values look alike where they are the same, or absent. -/
theorem shown_eq_shown_iff [Inhabited α] (present : Bool) (v w : α) :
    (if present then v else default) = (if present then w else default) ↔
      (present = true → v = w) := by
  cases present with
  | true => simp
  | false => simp

/-- Making an absent value blank twice is making it blank once. -/
theorem shown_shown [Inhabited α] (present : Bool) (v : α) :
    (if present then if present then v else default else default) =
      if present then v else default := by
  cases present <;> rfl

/-- And its bytes do not tell. -/
theorem bytes_shown [Field α] [Inhabited α] (present : Bool) (v : α) :
    (if present then Field.bytes order (if present then v else default) else []) =
      if present then Field.bytes order v else [] := by
  cases present <;> rfl

/-- Nor does the field among others. -/
theorem fields_shown [Field α] [Inhabited α] (present : Bool) (v : α) :
    (if present then [Field.bytes order (if present then v else default)] else []) =
      if present then [Field.bytes order v] else [] := by
  cases present <;> rfl

@[simp] theorem reads_require (p : Prop) [Decidable p] (chunk : Bytes) (v : Unit) :
    (require p : Decoder order Unit).Reads chunk v ↔ chunk = [] ∧ p := by
  unfold require
  split
  · next h => simp [Reads, h]
  · next h => simp [Reads, h]

theorem reads_measuredFrom (d : Decoder order α) (before : Nat) (chunk : Bytes) (v : α × Nat) :
    (d.measuredFrom before).Reads chunk v ↔
      d.Reads chunk v.1 ∧ v.2 = before + chunk.length := by
  induction d generalizing before chunk with
  | done value =>
    obtain ⟨v, n⟩ := v
    simp only [measuredFrom, Reads, Prod.mk.injEq]
    constructor
    · rintro ⟨rfl, rfl, rfl⟩
      simp
    · rintro ⟨⟨rfl, rfl⟩, rfl⟩
      simp
  | reject => simp [measuredFrom, Reads]
  | take n next ih =>
    simp only [measuredFrom, Reads, ih]
    constructor
    · rintro ⟨octets, rest, rfl, hd, hn⟩
      exact ⟨⟨octets, rest, rfl, hd⟩, by simp [hn, Nat.add_assoc]⟩
    · rintro ⟨⟨octets, rest, rfl, hd⟩, hn⟩
      exact ⟨octets, rest, rfl, hd, by simp [hn, Nat.add_assoc]⟩
  | room n next ih => exact ih before chunk

/-- The number a decoder is measured by is that of the bytes it reads. -/
@[simp] theorem reads_measured (d : Decoder order α) (chunk : Bytes) (v : α × Nat) :
    d.measured.Reads chunk v ↔ d.Reads chunk v.1 ∧ v.2 = chunk.length := by
  simp [measured, reads_measuredFrom]

/-! The same for a part in front of the rest of a decoder. -/

@[simp] theorem reads_field_bind [Field α] (f : α → Decoder order β) (chunk : Bytes) (v : β) :
    (field >>= f).Reads chunk v ↔
      ∃ u after, chunk = Field.bytes order u ++ after ∧ (f u).Reads after v := by
  simp only [reads_bind, reads_field]
  constructor
  · rintro ⟨u, -, after, rfl, rfl, h⟩
    exact ⟨u, after, rfl, h⟩
  · rintro ⟨u, after, rfl, h⟩
    exact ⟨u, _, after, rfl, rfl, h⟩

@[simp] theorem reads_fieldIf_bind [Field α] [Inhabited α] (present : Bool)
    (f : α → Decoder order β) (chunk : Bytes) (v : β) :
    (fieldIf present >>= f).Reads chunk v ↔
      ∃ u after, chunk = (if present then Field.bytes order u else []) ++ after ∧
        (present = false → u = default) ∧ (f u).Reads after v := by
  simp only [reads_bind, reads_fieldIf]
  constructor
  · rintro ⟨u, -, after, rfl, ⟨rfl, hu⟩, h⟩
    exact ⟨u, after, rfl, hu, h⟩
  · rintro ⟨u, after, rfl, hu, h⟩
    exact ⟨u, _, after, rfl, ⟨rfl, hu⟩, h⟩

@[simp] theorem reads_require_bind (p : Prop) [Decidable p] (f : Unit → Decoder order β)
    (chunk : Bytes) (v : β) : (require p >>= f).Reads chunk v ↔ p ∧ (f ()).Reads chunk v := by
  simp only [reads_bind, reads_require]
  constructor
  · rintro ⟨_, _, after, rfl, ⟨rfl, hp⟩, h⟩
    exact ⟨hp, h⟩
  · rintro ⟨hp, h⟩
    exact ⟨(), [], chunk, rfl, ⟨rfl, hp⟩, h⟩

/-- Repeating a decoder whose values have a layout each reads the
layouts one behind another. -/
theorem reads_repeated {d : Decoder order α} {good : α → Prop} {layout : α → Bytes}
    (hd : ∀ chunk v, d.Reads chunk v ↔ chunk = layout v ∧ good v) (n : Nat) (chunk : Bytes)
    (vs : List α) :
    (repeated n d).Reads chunk vs ↔
      vs.length = n ∧ chunk = vs.flatMap layout ∧ ∀ v ∈ vs, good v := by
  induction n generalizing chunk vs with
  | zero =>
    simp only [repeated, Reads, List.length_eq_zero_iff]
    constructor
    · rintro ⟨rfl, rfl⟩
      simp
    · rintro ⟨rfl, rfl, -⟩
      simp
  | succ n ih =>
    simp only [repeated, reads_bind, reads_pure, hd, ih]
    constructor
    · rintro ⟨v, before, -, rfl, ⟨rfl, hv⟩, vs, -, -, rfl, ⟨hn, rfl, hvs⟩, rfl, rfl⟩
      simp_all
    · rintro ⟨hn, rfl, hgood⟩
      cases vs with
      | nil => cases hn
      | cons v vs =>
        obtain ⟨hv, hvs⟩ := List.forall_mem_cons.1 hgood
        refine ⟨v, layout v, vs.flatMap layout, rfl, ⟨rfl, hv⟩, vs, vs.flatMap layout, [],
          (List.append_nil _).symm, ⟨?_, rfl, hvs⟩, rfl, rfl⟩
        simpa using hn

/-! ## Frugal decoders -/

@[simp] theorem frugal_pure (value : α) : (pure value : Decoder order α).Frugal := trivial

theorem frugal_bind {d : Decoder order α} {f : α → Decoder order β} (hd : d.Frugal)
    (hf : ∀ v, (f v).Frugal) : (d >>= f).Frugal := by
  change (d.bind f).Frugal
  induction d with
  | done value => exact hf value
  | reject => trivial
  | take n next ih => exact fun octets => ih octets (hd octets)
  | room n next ih =>
    refine ⟨fun chunk v h => ?_, ih hd.2⟩
    obtain ⟨u, before, after, rfl, hbefore, -⟩ := (reads_bind next f chunk v).1 h
    have := hd.1 before u hbefore
    rw [List.length_append]
    omega

@[simp] theorem frugal_field_bind [Field α] (f : α → Decoder order β) :
    (field >>= f).Frugal ↔ ∀ v, (f v).Frugal := by
  constructor
  · intro h v
    rw [← Field.decode_encode order v]
    exact h (Field.encode order v)
  · exact fun h octets => h (Field.decode order octets)

@[simp] theorem frugal_fieldIf_bind [Field α] [Inhabited α] (present : Bool)
    (f : α → Decoder order β) :
    (fieldIf present >>= f).Frugal ↔ ∀ v, (present = false → v = default) → (f v).Frugal := by
  cases present with
  | true => simp [fieldIf]
  | false => simp [fieldIf, Bind.bind, bind]

@[simp] theorem frugal_require_bind (p : Prop) [Decidable p] (f : Unit → Decoder order β) :
    (require p >>= f).Frugal ↔ (p → (f ()).Frugal) := by
  unfold require
  split
  · next h => simp [h, Bind.bind, bind]
  · next h => simp [h, Bind.bind, bind, Frugal]

/-- Room is well asked for where what follows uses it. -/
theorem frugal_ensure_bind {n : Nat} {f : Unit → Decoder order β}
    (hn : ∀ chunk v, (f ()).Reads chunk v → n ≤ chunk.length) (hf : (f ()).Frugal) :
    (ensure n >>= f).Frugal := ⟨hn, hf⟩

@[simp] theorem frugal_field [Field α] : (field : Decoder order α).Frugal := fun _ => trivial

theorem frugal_measuredFrom {d : Decoder order α} (h : d.Frugal) (before : Nat) :
    (d.measuredFrom before).Frugal := by
  induction d generalizing before with
  | done value => trivial
  | reject => trivial
  | take n next ih => exact fun octets => ih octets (h octets) _
  | room n next ih =>
    exact ⟨fun chunk v hv => h.1 chunk v.1 ((reads_measuredFrom next before chunk v).1 hv).1,
      ih h.2 before⟩

theorem frugal_measured {d : Decoder order α} (h : d.Frugal) : d.measured.Frugal :=
  frugal_measuredFrom h 0

theorem frugal_repeated {d : Decoder order α} (h : d.Frugal) (n : Nat) :
    (repeated n d).Frugal := by
  induction n with
  | zero => trivial
  | succ n ih => exact frugal_bind h fun _ => frugal_bind ih fun _ => trivial

/-! ## Runs -/

/-- A run that succeeds has read the bytes it moved over. -/
theorem reads_of_run {d : Decoder order α} {s t : Source order} {v : α}
    (h : d.run s = (.ok v, t)) :
    ∃ chunk rest, s.bytes.drop s.pos = chunk ++ rest ∧ d.Reads chunk v ∧
      t = s.advance chunk.length := by
  induction d generalizing s with
  | done value =>
    cases h
    exact ⟨[], _, rfl, ⟨rfl, rfl⟩, rfl⟩
  | reject => cases h
  | take n next ih =>
    rw [run_take] at h
    split at h
    · next octets hpeek =>
      obtain ⟨chunk, rest, hs, hreads, rfl⟩ := ih octets h
      have hoctets := Source.toList_of_peek hpeek
      refine ⟨octets.toList ++ chunk, rest, ?_, ⟨octets, chunk, rfl, hreads⟩, ?_⟩
      · rw [List.append_assoc, ← hs, hoctets]
        simp [Source.advance, ← List.drop_drop]
      · simp [Source.advance, Nat.add_assoc]
    · cases h
  | room n next ih =>
    rw [run] at h
    split at h
    · exact ih h
    · cases h

/-- A frugal decoder succeeds where the bytes it reads stand, whatever
follows them. -/
theorem run_of_reads {d : Decoder order α} {s : Source order} {chunk rest : Bytes} {v : α}
    (hd : d.Frugal) (h : d.Reads chunk v) (hs : s.bytes.drop s.pos = chunk ++ rest) :
    d.run s = (.ok v, s.advance chunk.length) := by
  have hlen : s.remaining = chunk.length + rest.length := by
    rw [← List.length_append, ← hs, List.length_drop, Source.remaining]
  induction d generalizing s chunk with
  | done value =>
    obtain ⟨rfl, rfl⟩ := h
    rfl
  | reject => cases h
  | take n next ih =>
    obtain ⟨octets, chunk, rfl, h⟩ := h
    have hpeek : s.peek n = .ok octets :=
      Source.peek_of_le (by simp at hlen; omega) (by simp [hs])
    rw [run_take, hpeek]
    refine (ih octets (hd octets) h (s := s.advance n) ?_ ?_).trans ?_
    · simp [Source.advance, ← List.drop_drop, hs]
    · simp [Source.remaining, Source.advance] at hlen ⊢
      omega
    · simp [Source.advance, Nat.add_assoc]
  | room n next ih =>
    have := hd.1 chunk v h
    rw [run, if_pos (by omega)]
    exact ih hd.2 h hs hlen

/-- **A frugal decoder accepts exactly the byte strings that begin with
bytes it reads.** -/
theorem decode_eq_ok_iff {d : Decoder order α} (hd : d.Frugal) (bytes : Bytes) (v : α)
    (n : Nat) :
    d.decode bytes = .ok (v, n) ↔ n ≤ bytes.length ∧ d.Reads (bytes.take n) v := by
  unfold decode
  constructor
  · intro h
    split at h
    · next v s hrun =>
      cases h
      obtain ⟨chunk, rest, hs, hreads, rfl⟩ := reads_of_run hrun
      replace hs : bytes = chunk ++ rest := hs
      subst hs
      simpa [Source.advance, Source.ofBytes] using hreads
    · cases h
  · rintro ⟨hn, hreads⟩
    have hs : bytes = bytes.take n ++ bytes.drop n := (List.take_append_drop n bytes).symm
    rw [run_of_reads (s := Source.ofBytes bytes) hd hreads hs]
    simp [Source.advance, Source.ofBytes, hn]

end Decoder

end TradeWire
