import TradeWire.Source
import TradeWire.Field
/-!
# Decoders — what to read, as data

A decoder says which bytes to take next and, by their values, how to go
on. It sees bytes only through what it takes: not the position it runs
at, nor the bytes behind it, nor how many are left beyond what it asks
for by `room`. So what holds of every decoder, where it stops and how
its verdict changes as bytes arrive, is proved of the four constructors
once.

A decoder can reject a value or run out of bytes; it has no way to fail
otherwise.
-/

namespace TradeWire

/-- **A program of reads in one byte order.** -/
inductive Decoder (order : ByteOrder) (α : Type) where
  /-- Ends with a value. -/
  | done (value : α)
  /-- Ends because a value read breaks a rule. -/
  | reject
  /-- Takes `n` bytes and goes on by their values. -/
  | take (n : Nat) (next : Octets n → Decoder order α)
  /-- Goes on only where `n` more bytes are left, taking none. -/
  | room (n : Nat) (next : Decoder order α)

namespace Decoder

variable {order : ByteOrder} {α β γ : Type}

/-! ## Sequencing -/

/-- One decoder after another. -/
def bind : Decoder order α → (α → Decoder order β) → Decoder order β
  | done value, f => f value
  | reject, _ => reject
  | take n next, f => take n fun octets => (next octets).bind f
  | room n next, f => room n (next.bind f)

instance : Monad (Decoder order) where
  pure := done
  bind := bind

theorem bind_done (d : Decoder order α) : d.bind done = d := by
  induction d with
  | done _ => rfl
  | reject => rfl
  | take n next ih => simp only [bind, ih]
  | room n next ih => simp only [bind, ih]

theorem bind_bind (d : Decoder order α) (f : α → Decoder order β) (g : β → Decoder order γ) :
    (d.bind f).bind g = d.bind fun value => (f value).bind g := by
  induction d with
  | done _ => rfl
  | reject => rfl
  | take n next ih => simp only [bind, ih]
  | room n next ih => simp only [bind, ih]

instance : LawfulMonad (Decoder order) :=
  LawfulMonad.mk' _ bind_done (fun _ _ => rfl) bind_bind

/-- The value of a field. -/
def field [Field α] : Decoder order α :=
  take (Field.size α) fun octets => done (Field.decode order octets)

/-- The value of a field that is there, and the blank value of one that
is not. -/
def fieldIf [Field α] [Inhabited α] (present : Bool) : Decoder order α :=
  if present then field else done default

/-- Rejects unless the condition holds. -/
def require (p : Prop) [Decidable p] : Decoder order Unit :=
  if p then done () else reject

/-- Goes on only where `n` more bytes are left. -/
def ensure (n : Nat) : Decoder order Unit := room n (done ())

/-- The same reads, with the number of bytes taken; `before` are those
taken already. -/
def measuredFrom (before : Nat) : Decoder order α → Decoder order (α × Nat)
  | done value => done (value, before)
  | reject => reject
  | take n next => take n fun octets => (next octets).measuredFrom (before + n)
  | room n next => room n (next.measuredFrom before)

/-- The same reads, with the number of bytes they took. -/
def measured (d : Decoder order α) : Decoder order (α × Nat) := d.measuredFrom 0

/-- A decoder `n` times over, its values in the order read. -/
def repeated (n : Nat) (d : Decoder order α) : Decoder order (List α) :=
  match n with
  | 0 => done []
  | n + 1 => do
    let first ← d
    let rest ← repeated n d
    pure (first :: rest)

/-! ## Running -/

/-- Runs a decoder on a source. A decoder that fails leaves the source
behind the last bytes it took. -/
def run : Decoder order α → Source order → Except Fault α × Source order
  | done value, s => (.ok value, s)
  | reject, s => (.error .badValue, s)
  | take n next, s =>
    match s.take n with
    | (.ok octets, s) => (next octets).run s
    | (.error fault, s) => (.error fault, s)
  | room n next, s => if n ≤ s.remaining then next.run s else (.error .shortBuffer, s)

theorem run_take (n : Nat) (next : Octets n → Decoder order α) (s : Source order) :
    (take n next).run s =
      match s.peek n with
      | .ok octets => (next octets).run (s.advance n)
      | .error fault => (.error fault, s) := by
  rw [run, Source.take]
  cases s.peek n <;> rfl

/-- Running one decoder after another. -/
theorem run_bind (d : Decoder order α) (f : α → Decoder order β) (s : Source order) :
    (d >>= f).run s =
      match d.run s with
      | (.ok value, s) => (f value).run s
      | (.error fault, s) => (.error fault, s) := by
  change (d.bind f).run s = _
  induction d generalizing s with
  | done _ => rfl
  | reject => rfl
  | take n next ih =>
    rw [bind, run_take, run_take]
    cases s.peek n with
    | error _ => rfl
    | ok octets => exact ih octets _
  | room n next ih =>
    rw [bind, run, run]
    split
    · exact ih s
    · rfl

/-- A decoder changes no byte. -/
theorem bytes_run (d : Decoder order α) (s : Source order) : (d.run s).2.bytes = s.bytes := by
  induction d generalizing s with
  | done _ => rfl
  | reject => rfl
  | take n next ih =>
    rw [run_take]
    split
    · exact ih _ (s.advance n)
    · rfl
  | room n next ih =>
    rw [run]
    split
    · exact ih s
    · rfl

/-- A decoder never moves a source back. -/
theorem pos_le_run (d : Decoder order α) (s : Source order) : s.pos ≤ (d.run s).2.pos := by
  induction d generalizing s with
  | done _ => exact Nat.le_refl _
  | reject => exact Nat.le_refl _
  | take n next ih =>
    rw [run_take]
    split
    · exact Nat.le_trans (Nat.le_add_right _ n) (ih _ (s.advance n))
    · exact Nat.le_refl _
  | room n next ih =>
    unfold run
    split
    · exact ih s
    · exact Nat.le_refl _

/-- Measured reads are the reads themselves; the count grows by how far
they moved. -/
theorem run_measuredFrom (d : Decoder order α) (before : Nat) (s : Source order) :
    (d.measuredFrom before).run s =
      match d.run s with
      | (.ok value, t) => (.ok (value, before + (t.pos - s.pos)), t)
      | (.error fault, t) => (.error fault, t) := by
  induction d generalizing s before with
  | done _ => simp [measuredFrom, run]
  | reject => rfl
  | take n next ih =>
    rw [measuredFrom, run_take, run_take]
    cases s.peek n with
    | error _ => rfl
    | ok octets =>
      have hpos := pos_le_run (next octets) (s.advance n)
      have hadv : (s.advance n).pos = s.pos + n := rfl
      simp only [ih]
      split
      · next t hrun =>
        rw [hrun] at hpos
        dsimp only at hpos
        rw [show before + n + (t.pos - (s.advance n).pos) = before + (t.pos - s.pos) by omega]
      · rfl
  | room n next ih =>
    rw [measuredFrom, run, run]
    split
    · exact ih before s
    · rfl

/-- The count a decoder is measured by is how far it moved. -/
theorem run_measured (d : Decoder order α) (s : Source order) :
    d.measured.run s =
      match d.run s with
      | (.ok value, t) => (.ok (value, t.pos - s.pos), t)
      | (.error fault, t) => (.error fault, t) := by
  simp only [measured, run_measuredFrom, Nat.zero_add]

/-- Runs a decoder on a byte string from its first byte, and says how
many bytes it took. -/
def decode (d : Decoder order α) (bytes : Bytes) : Except Fault (α × Nat) :=
  match d.run (Source.ofBytes bytes) with
  | (.ok value, s) => .ok (value, s.pos)
  | (.error fault, _) => .error fault

/-- What a decoder takes first counts among what it took. -/
theorem le_of_decode_take {n m : Nat} {next : Octets n → Decoder order α} {bytes : Bytes}
    {value : α} (h : (take n next).decode bytes = .ok (value, m)) : n ≤ m := by
  unfold decode at h
  rw [run_take] at h
  cases hpeek : (Source.ofBytes bytes : Source order).peek n with
  | error fault => simp [hpeek] at h
  | ok octets =>
    have hpos := pos_le_run (next octets) ((Source.ofBytes bytes : Source order).advance n)
    simp only [hpeek] at h
    split at h
    · next s hrun =>
      cases h
      rw [hrun] at hpos
      exact Nat.le_trans (Nat.le_add_left n 0) hpos
    · cases h

end Decoder

end TradeWire
