import TradeWire.Proofs.Reading
/-!
# Arrival — verdicts while bytes are still coming

A decoder sees bytes only through what it takes, so bytes that come
later change nothing about a run that did not run out
(`decode_append`).

How long the lack can last is a bound on what a decoder asks for,
whatever it reads on the way: `AtMost`, again one rule for each part.
-/

namespace TradeWire

namespace Source

variable {order : ByteOrder} {n : Nat}

/-- The source with more bytes behind those it has. -/
def extend (s : Source order) (more : Bytes) : Source order :=
  { s with bytes := s.bytes ++ more }

/-- What can be seen ahead stays as it is when bytes arrive. -/
theorem peek_extend {s : Source order} {octets : Octets n} (h : s.peek n = .ok octets)
    (more : Bytes) : (s.extend more).peek n = .ok octets := by
  have hle := le_remaining_of_peek h
  have hremaining : s.remaining = s.bytes.length - s.pos := rfl
  refine peek_of_le ?_ ?_
  · simp only [remaining, extend, List.length_append]
    omega
  · rw [toList_of_peek h]
    simp only [extend, List.drop_append, List.take_append, List.length_drop]
    rw [show n - (s.bytes.length - s.pos) = 0 by omega, List.take_zero, List.append_nil]

end Source

namespace Decoder

variable {order : ByteOrder} {α β : Type}

/-- A decode fails where its run does, and for the same reason. -/
theorem decode_eq_error_iff (d : Decoder order α) (bytes : Bytes) (fault : Fault) :
    d.decode bytes = .error fault ↔ (d.run (Source.ofBytes bytes)).1 = .error fault := by
  unfold decode
  rcases d.run (Source.ofBytes bytes) with ⟨_ | _, _⟩ <;> simp

/-- A decoder rejects a value or lacks bytes, and fails for no other
reason. -/
theorem decode_ne_unknownType (d : Decoder order α) (bytes : Bytes) :
    d.decode bytes ≠ .error .unknownType := by
  rw [Ne, decode_eq_error_iff]
  generalize Source.ofBytes bytes = s
  induction d generalizing s with
  | done _ => simp [run]
  | reject => simp [run]
  | take n next ih =>
    rw [run_take]
    cases hpeek : s.peek n with
    | error fault =>
      obtain ⟨rfl, -⟩ := (Source.peek_eq_error_iff s n fault).1 hpeek
      simp
    | ok octets => exact ih octets _
  | room n next ih =>
    rw [run]
    split
    · exact ih s
    · simp

/-! ## More bytes -/

/-- A run that did not run out of bytes is the same with more of them. -/
theorem run_extend {d : Decoder order α} {s : Source order}
    (h : (d.run s).1 ≠ .error .shortBuffer) (more : Bytes) :
    d.run (s.extend more) = ((d.run s).1, (d.run s).2.extend more) := by
  induction d generalizing s with
  | done _ => rfl
  | reject => rfl
  | take n next ih =>
    rw [run_take] at h ⊢
    rw [run_take]
    cases hpeek : s.peek n with
    | error fault =>
      obtain ⟨rfl, -⟩ := (Source.peek_eq_error_iff s n fault).1 hpeek
      rw [hpeek] at h
      exact absurd rfl h
    | ok octets =>
      rw [hpeek] at h
      rw [Source.peek_extend hpeek]
      exact ih octets h
  | room n next ih =>
    rw [run] at h ⊢
    rw [run]
    split at h
    · next hn =>
      have hle : s.remaining ≤ (s.extend more).remaining := by
        simp only [Source.remaining, Source.extend, List.length_append]
        omega
      rw [if_pos hn, if_pos (by omega)]
      exact ih h
    · exact absurd rfl h

/-- **A verdict that is not a lack of bytes is final.** -/
theorem decode_append {d : Decoder order α} {bytes : Bytes}
    (h : d.decode bytes ≠ .error .shortBuffer) (more : Bytes) :
    d.decode (bytes ++ more) = d.decode bytes := by
  rw [Ne, decode_eq_error_iff] at h
  have hextend : Source.ofBytes (bytes ++ more) =
      (Source.ofBytes bytes : Source order).extend more := rfl
  unfold decode
  rw [hextend, run_extend h more]
  rcases d.run (Source.ofBytes bytes) with ⟨_ | _, _⟩ <;> rfl

/-- **What is accepted is accepted for the bytes it takes,** whatever
stands behind them. -/
theorem decode_congr_take {d : Decoder order α} (hd : d.Frugal) {bytes other : Bytes} {v : α}
    {n : Nat} (h : d.decode bytes = .ok (v, n)) (htake : other.take n = bytes.take n) :
    d.decode other = .ok (v, n) := by
  obtain ⟨hn, hreads⟩ := (decode_eq_ok_iff hd bytes v n).1 h
  have hlen := congrArg List.length htake
  simp only [List.length_take] at hlen
  refine (decode_eq_ok_iff hd other v n).2 ⟨by omega, ?_⟩
  rw [htake]
  exact hreads

/-- So it is accepted from these bytes alone. -/
theorem decode_take_of_ok {d : Decoder order α} (hd : d.Frugal) {bytes : Bytes} {v : α} {n : Nat}
    (h : d.decode bytes = .ok (v, n)) : d.decode (bytes.take n) = .ok (v, n) :=
  decode_congr_take hd h (by rw [List.take_take, Nat.min_self])

/-! ## Bytes enough -/

/-- **Never more than this many bytes are asked for,** taken or as room,
whatever is read on the way. -/
def AtMost : Decoder order α → Nat → Prop
  | done _, _ | reject, _ => True
  | take n next, most => n ≤ most ∧ ∀ octets, (next octets).AtMost (most - n)
  | room n next, most => n ≤ most ∧ next.AtMost most

theorem run_ne_shortBuffer {d : Decoder order α} {most : Nat} {s : Source order}
    (h : d.AtMost most) (hs : most ≤ s.remaining) : (d.run s).1 ≠ .error .shortBuffer := by
  induction d generalizing most s with
  | done _ => simp [run]
  | reject => simp [run]
  | take n next ih =>
    rw [run_take]
    cases hpeek : s.peek n with
    | error fault =>
      have := (Source.peek_eq_error_iff s n fault).1 hpeek
      have := h.1
      omega
    | ok octets =>
      refine ih octets (h.2 octets) ?_
      simp only [Source.remaining, Source.advance] at hs ⊢
      omega
  | room n next ih =>
    have := h.1
    rw [run, if_pos (by omega)]
    exact ih h.2 hs

/-- **Bytes enough are never too few.** -/
theorem decode_ne_shortBuffer {d : Decoder order α} {most : Nat} {bytes : Bytes}
    (h : d.AtMost most) (hbytes : most ≤ bytes.length) :
    d.decode bytes ≠ .error .shortBuffer := by
  rw [Ne, decode_eq_error_iff]
  exact run_ne_shortBuffer h hbytes

theorem AtMost.mono {d : Decoder order α} {most more : Nat} (h : d.AtMost most)
    (hle : most ≤ more) : d.AtMost more := by
  induction d generalizing most more with
  | done _ => trivial
  | reject => trivial
  | take n next ih =>
    have := h.1
    exact ⟨by omega, fun octets => ih octets (h.2 octets) (by omega)⟩
  | room n next ih =>
    have := h.1
    exact ⟨by omega, ih h.2 hle⟩

@[simp] theorem atMost_pure (value : α) (most : Nat) :
    (pure value : Decoder order α).AtMost most := trivial

theorem atMost_bind {d : Decoder order α} {f : α → Decoder order β} {most more : Nat}
    (hd : d.AtMost most) (hf : ∀ v, (f v).AtMost more) : (d >>= f).AtMost (most + more) := by
  change (d.bind f).AtMost _
  induction d generalizing most with
  | done value => exact (hf value).mono (by omega)
  | reject => trivial
  | take n next ih =>
    have := hd.1
    refine ⟨by omega, fun octets => ?_⟩
    rw [show most + more - n = most - n + more by omega]
    exact ih octets (hd.2 octets)
  | room n next ih =>
    have := hd.1
    exact ⟨by omega, ih hd.2⟩

/-- Room asked for in front of reads is the room they take. -/
theorem atMost_ensure_bind {n most : Nat} {f : Unit → Decoder order β} (hn : n ≤ most)
    (hf : (f ()).AtMost most) : (ensure n >>= f).AtMost most := ⟨hn, hf⟩

@[simp] theorem atMost_field [Field α] (most : Nat) :
    (field : Decoder order α).AtMost most ↔ Field.size α ≤ most :=
  ⟨fun h => h.1, fun h => ⟨h, fun _ => trivial⟩⟩

@[simp] theorem atMost_field_bind [Field α] (f : α → Decoder order β) (most : Nat) :
    (field >>= f).AtMost most ↔
      Field.size α ≤ most ∧ ∀ v, (f v).AtMost (most - Field.size α) := by
  constructor
  · rintro ⟨hle, hnext⟩
    refine ⟨hle, fun v => ?_⟩
    have hv : (f (Field.decode order (Field.encode order v))).AtMost _ := hnext _
    rwa [Field.decode_encode] at hv
  · rintro ⟨hle, hf⟩
    exact ⟨hle, fun octets => hf _⟩

@[simp] theorem atMost_fieldIf_bind [Field α] [Inhabited α] (present : Bool)
    (f : α → Decoder order β) (most : Nat) :
    (fieldIf present >>= f).AtMost most ↔
      if present then (field >>= f).AtMost most else (f default).AtMost most := by
  cases present <;> rfl

@[simp] theorem atMost_require_bind (p : Prop) [Decidable p] (f : Unit → Decoder order β)
    (most : Nat) : (require p >>= f).AtMost most ↔ (p → (f ()).AtMost most) := by
  unfold require
  split
  · next h => exact ⟨fun hf _ => hf, fun hf => hf h⟩
  · next h => exact ⟨fun _ hp => absurd hp h, fun _ => trivial⟩

theorem atMost_measured {d : Decoder order α} {most : Nat} (h : d.AtMost most) :
    d.measured.AtMost most := by
  have key : ∀ before, (d.measuredFrom before).AtMost most := by
    induction d generalizing most with
    | done _ => exact fun _ => trivial
    | reject => exact fun _ => trivial
    | take n next ih => exact fun before => ⟨h.1, fun octets => ih octets (h.2 octets) _⟩
    | room n next ih => exact fun before => ⟨h.1, ih h.2 before⟩
  exact key 0

theorem atMost_repeated {d : Decoder order α} {most : Nat} (h : d.AtMost most) (n : Nat) :
    (repeated n d).AtMost (n * most) := by
  induction n with
  | zero => trivial
  | succ n ih =>
    rw [Nat.succ_mul, Nat.add_comm (n * most)]
    exact atMost_bind h fun first => atMost_bind ih fun rest => atMost_pure (first :: rest) 0

end Decoder

end TradeWire
