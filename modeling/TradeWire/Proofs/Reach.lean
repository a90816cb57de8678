import TradeWire.Proofs.Reading
/-!
# Reach — how far a decoder gets

What a decoder says of bytes, its value apart, is where it comes to
stand, or why it does not: `reach`, from any start. Offsets are those of
the whole byte string, so a fact about the byte at an offset can be used
as it stands.

Two bounds hold whatever is read on the way. A decoder that takes so many
bytes before it can end lacks bytes where there are fewer (`AtLeast`);
one that takes exactly so many and checks none of them succeeds where
they are there (`Fixed`). Room asked for in front of such reads, and no
more than they take, changes nothing about it.
-/

namespace TradeWire

namespace Decoder

variable {order : ByteOrder} {α β : Type} {bytes : Bytes} {start n m : Nat}

/-- **Where a decoder comes to stand** that begins behind the first bytes,
or why it fails. -/
def reach (d : Decoder order α) (bytes : Bytes) (start : Nat) : Except Fault Nat :=
  match d.run ⟨bytes, start⟩ with
  | (.ok _, s) => .ok s.pos
  | (.error fault, _) => .error fault

/-- From the first byte, that is how many it takes. -/
theorem reach_zero (d : Decoder order α) (bytes : Bytes) :
    d.reach bytes 0 = (d.decode bytes).map Prod.snd := by
  unfold reach decode Source.ofBytes
  rcases d.run ⟨bytes, 0⟩ with ⟨_ | _, _⟩ <;> rfl

theorem reach_eq_error_iff (d : Decoder order α) (bytes : Bytes) (start : Nat) (fault : Fault) :
    d.reach bytes start = .error fault ↔ (d.run ⟨bytes, start⟩).1 = .error fault := by
  unfold reach
  rcases d.run ⟨bytes, start⟩ with ⟨_ | _, _⟩ <;> simp

/-- **What can be seen from an offset:** the bytes that stand there. -/
theorem peek_at (order : ByteOrder) (h : start + n ≤ bytes.length) :
    ∃ octets : Octets n, octets.toList = (bytes.drop start).take n ∧
      (⟨bytes, start⟩ : Source order).peek n = .ok octets := by
  have hremaining : (⟨bytes, start⟩ : Source order).remaining = bytes.length - start := rfl
  exact Source.exists_peek ⟨bytes, start⟩ (by omega)

/-! ## A rule for each part -/

/-- One decoder after another: the second begins where the first came to
stand, with what it read. -/
theorem reach_bind_of_run {d : Decoder order α} {f : α → Decoder order β} {v : α}
    (h : d.run ⟨bytes, start⟩ = (.ok v, ⟨bytes, n⟩)) :
    (d >>= f).reach bytes start = (f v).reach bytes n := by
  unfold reach
  rw [run_bind, h]

/-- **A field that is there** is the bytes that stand there, and what
follows begins behind them. -/
theorem field_at (order : ByteOrder) (α : Type) [Field α] (hnext : start + Field.size α = n)
    (h : n ≤ bytes.length) :
    ∃ v : α, Field.bytes order v = (bytes.drop start).take (Field.size α) ∧
      ∀ {β : Type} (f : α → Decoder order β),
        (field >>= f).reach bytes start = (f v).reach bytes n := by
  have hthere : start + Field.size α ≤ bytes.length := Nat.le_trans (Nat.le_of_eq hnext) h
  obtain ⟨octets, hoctets, hpeek⟩ := peek_at order hthere
  refine ⟨Field.decode order octets, ?_, fun f => reach_bind_of_run ?_⟩
  · rw [Field.bytes, Field.encode_decode, hoctets]
  · rw [field, run_take, hpeek, ← hnext]
    rfl

/-- **A field that may be absent** is there where it is said to be. -/
theorem fieldIf_at (order : ByteOrder) (α : Type) [Field α] [Inhabited α] (present : Bool)
    (hnext : start + (if present then Field.size α else 0) = n) (h : n ≤ bytes.length) :
    ∃ v : α, ∀ {β : Type} (f : α → Decoder order β),
      (fieldIf present >>= f).reach bytes start = (f v).reach bytes n := by
  cases present with
  | true =>
    obtain ⟨v, -, hreach⟩ := field_at order α hnext h
    exact ⟨v, hreach⟩
  | false =>
    obtain rfl : start = n := hnext
    exact ⟨default, fun f => rfl⟩

/-- A condition holds, or the decoder rejects. -/
theorem reach_require_bind (p : Prop) [Decidable p] (f : Unit → Decoder order β) (bytes : Bytes)
    (start : Nat) :
    (require p >>= f).reach bytes start =
      if p then (f ()).reach bytes start else .error .badValue := by
  unfold require
  split <;> rfl

/-- **A field that must have one value:** it has it where the bytes of that
value stand. -/
theorem reach_expect [Field α] [DecidableEq α] (expected : α) (f : Unit → Decoder order β)
    (hnext : start + Field.size α = n) (h : n ≤ bytes.length) :
    (field >>= fun found => require (found = expected) >>= f).reach bytes start =
      if (bytes.drop start).take (Field.size α) = Field.bytes order expected then
        (f ()).reach bytes n
      else .error .badValue := by
  obtain ⟨found, hfound, hreach⟩ := field_at order α hnext h
  rw [hreach, reach_require_bind, ← hfound]
  simp only [Field.bytes_inj]

/-! ## Bytes that are taken in any case -/

/-- **So many bytes are taken before the end,** whatever they are. -/
def AtLeast : Decoder order α → Nat → Prop
  | done _, least | reject, least => least = 0
  | take n next, least => ∀ octets, (next octets).AtLeast (least - n)
  | room _ next, least => next.AtLeast least

@[simp] theorem atLeast_zero (d : Decoder order α) : d.AtLeast 0 := by
  induction d with
  | done _ => rfl
  | reject => rfl
  | take n next ih =>
    intro octets
    rw [Nat.zero_sub]
    exact ih octets
  | room n next ih => exact ih

@[simp] theorem atLeast_field_bind [Field α] (f : α → Decoder order β) (least : Nat) :
    (field >>= f).AtLeast least ↔ ∀ v, (f v).AtLeast (least - Field.size α) := by
  constructor
  · intro h v
    rw [← Field.decode_encode order v]
    exact h (Field.encode order v)
  · exact fun h octets => h (Field.decode order octets)

/-- **Fewer bytes are a lack of bytes,** wherever a source stands. -/
theorem run_of_atLeast {d : Decoder order α} {least : Nat} (h : d.AtLeast least)
    {s : Source order} (hlt : s.remaining < least) : (d.run s).1 = .error .shortBuffer := by
  induction d generalizing s least with
  | done _ | reject =>
    obtain rfl : least = 0 := h
    exact absurd hlt (Nat.not_lt_zero _)
  | take n next ih =>
    rw [run_take]
    cases hpeek : s.peek n with
    | error fault =>
      obtain ⟨rfl, -⟩ := (s.peek_eq_error_iff n fault).1 hpeek
      rfl
    | ok octets =>
      have hn : n ≤ s.remaining := Source.le_remaining_of_peek hpeek
      refine ih octets (h octets) ?_
      rw [s.remaining_advance]
      omega
  | room n next ih =>
    rw [run]
    split
    · exact ih h hlt
    · rfl

theorem reach_of_atLeast {d : Decoder order α} (least : Nat) (h : d.AtLeast least)
    (hstart : start ≤ bytes.length) (hlt : bytes.length < start + least) :
    d.reach bytes start = .error .shortBuffer := by
  have hremaining : (⟨bytes, start⟩ : Source order).remaining = bytes.length - start := rfl
  exact (reach_eq_error_iff _ _ _ _).2 (run_of_atLeast h (by omega))

/-! ## Decoders that check nothing they read -/

/-- **Exactly so many bytes are taken, and none is checked.** -/
def Fixed : Decoder order α → Nat → Prop
  | done _, size => size = 0
  | reject, _ => False
  | take n next, size => n ≤ size ∧ ∀ octets, (next octets).Fixed (size - n)
  | room n next, size => n ≤ size ∧ next.Fixed size

theorem Fixed.atLeast {d : Decoder order α} {size : Nat} (h : d.Fixed size) : d.AtLeast size := by
  induction d generalizing size with
  | done _ => exact h
  | reject => cases h
  | take n next ih => exact fun octets => ih octets (h.2 octets)
  | room n next ih => exact ih h.2

/-- Where they are there, such a decoder succeeds. -/
theorem run_of_fixed {d : Decoder order α} {size : Nat} (h : d.Fixed size) {s : Source order}
    (hle : size ≤ s.remaining) : ∃ v, d.run s = (.ok v, s.advance size) := by
  induction d generalizing s size with
  | done value =>
    obtain rfl : size = 0 := h
    exact ⟨value, rfl⟩
  | reject => cases h
  | take n next ih =>
    obtain ⟨hn, hnext⟩ := h
    obtain ⟨octets, -, hpeek⟩ := s.exists_peek (Nat.le_trans hn hle)
    have hrest : size - n ≤ (s.advance n).remaining := by
      rw [s.remaining_advance]
      omega
    obtain ⟨v, hrun⟩ := ih octets (hnext octets) hrest
    rw [s.advance_advance, Nat.add_sub_cancel' hn] at hrun
    refine ⟨v, ?_⟩
    rw [run_take, hpeek]
    exact hrun
  | room n next ih =>
    obtain ⟨hn, hnext⟩ := h
    rw [run, if_pos (Nat.le_trans hn hle)]
    exact ih hnext hle

/-- **How far a decoder gets that checks nothing.** -/
theorem reach_of_fixed {d : Decoder order α} {size : Nat} (h : d.Fixed size)
    (hstart : start ≤ bytes.length) :
    d.reach bytes start =
      if start + size ≤ bytes.length then .ok (start + size) else .error .shortBuffer := by
  split
  · next hle =>
    have hremaining : (⟨bytes, start⟩ : Source order).remaining = bytes.length - start := rfl
    obtain ⟨v, hrun⟩ := run_of_fixed h (show size ≤ (⟨bytes, start⟩ : Source order).remaining by omega)
    unfold reach
    rw [hrun]
    rfl
  · next hlt => exact reach_of_atLeast size h.atLeast hstart (by omega)

@[simp] theorem fixed_pure (value : α) (size : Nat) :
    (pure value : Decoder order α).Fixed size ↔ size = 0 := Iff.rfl

theorem fixed_bind {d : Decoder order α} {f : α → Decoder order β} (hd : d.Fixed n)
    (hf : ∀ v, (f v).Fixed m) : (d >>= f).Fixed (n + m) := by
  change (d.bind f).Fixed _
  induction d generalizing n with
  | done value =>
    obtain rfl : n = 0 := hd
    rw [Nat.zero_add]
    exact hf value
  | reject => cases hd
  | take k next ih =>
    obtain ⟨hk, hnext⟩ := hd
    refine ⟨by omega, fun octets => ?_⟩
    rw [show n + m - k = n - k + m by omega]
    exact ih octets (hnext octets)
  | room k next ih =>
    obtain ⟨hk, hnext⟩ := hd
    exact ⟨by omega, ih hnext⟩

/-- What follows such a decoder takes its own bytes besides. -/
theorem atLeast_bind_of_fixed {d : Decoder order α} {f : α → Decoder order β} (hd : d.Fixed n)
    (hf : ∀ v, (f v).AtLeast m) : (d >>= f).AtLeast (n + m) := by
  change (d.bind f).AtLeast _
  induction d generalizing n with
  | done value =>
    obtain rfl : n = 0 := hd
    rw [Nat.zero_add]
    exact hf value
  | reject => cases hd
  | take k next ih =>
    obtain ⟨hk, hnext⟩ := hd
    intro octets
    rw [show n + m - k = n - k + m by omega]
    exact ih octets (hnext octets)
  | room k next ih => exact ih hd.2

theorem fixed_field [Field α] : (field : Decoder order α).Fixed (Field.size α) :=
  ⟨Nat.le_refl _, fun _ => Nat.sub_self _⟩

/-- A field that may be absent takes its size, or nothing. -/
theorem fixed_fieldIf [Field α] [Inhabited α] (present : Bool) :
    (fieldIf present : Decoder order α).Fixed (if present then Field.size α else 0) := by
  cases present with
  | true => exact fixed_field
  | false => rfl

/-- **Room asked for in front of reads that take as much** is no further
condition. -/
theorem fixed_ensure_bind {f : Unit → Decoder order β} (hn : n ≤ m) (hf : (f ()).Fixed m) :
    (ensure n >>= f).Fixed m := ⟨hn, hf⟩

theorem fixed_repeated {d : Decoder order α} {size : Nat} (h : d.Fixed size) (n : Nat) :
    (repeated n d).Fixed (n * size) := by
  induction n with
  | zero => exact Nat.zero_mul size
  | succ n ih =>
    rw [Nat.succ_mul, Nat.add_comm (n * size)]
    exact fixed_bind h fun first => fixed_bind (m := 0) ih fun rest => rfl

end Decoder

end TradeWire
