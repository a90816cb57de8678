import TradeWire.Proofs.Reach
import TradeWire.Proofs.Shift
import TradeWire.Proofs.Widths
/-!
# Stopping — where a run leaves its source

A decoder that fails leaves its source behind the last bytes it took, and
what has been taken is a row of whole fields. So the widths of the fields
to come tell where a run may stop for want of bytes, and what is left is
where it may reject (`Leaves`). There is one rule for each part a decoder
is made of; each field that is passed is one width less, and shows its
bytes to what follows.

Room that is asked for ahead is the exception: without it the source is
left where it was asked, in front of fields that would have been there.
-/

namespace TradeWire

-- Sums start from the zero of `Nat` itself, whatever algebra is in scope.
attribute [local instance (high)] Zero.ofOfNat0

namespace Decoder

variable {order : ByteOrder} {α β : Type} {bytes : Bytes} {start next : Nat}
  {widths : List Nat} {rejected accepted : Nat → Prop}

/-- **Where a run leaves its source** that begins at a position of some
bytes: where it may end, where it may reject, or as far over the fields it
is to take as there are bytes for. -/
inductive Leaves (bytes : Bytes) (start : Nat) (widths : List Nat)
    (rejected accepted : Nat → Prop) : Except Fault α × Source order → Prop where
  | accepted {value : α} {s : Source order} (h : accepted s.pos) :
    Leaves bytes start widths rejected accepted (.ok value, s)
  | rejected {s : Source order} (h : rejected s.pos) :
    Leaves bytes start widths rejected accepted (.error .badValue, s)
  | short {n : Nat} {s : Source order} (pos : s.pos = start + n)
    (h : Furthest widths (bytes.length - start) n) :
    Leaves bytes start widths rejected accepted (.error .shortBuffer, s)

/-! ## A rule for each part -/

theorem leaves_pure (value : α) (h : accepted start) :
    Leaves bytes start widths rejected accepted
      ((pure value : Decoder order α).run ⟨bytes, start⟩) := .accepted h

/-- Where a run fails, what it accepts is no matter. -/
theorem Leaves.of_error {accepted' : Nat → Prop} {fault : Fault} {s : Source order}
    (h : Leaves (α := α) bytes start widths rejected accepted (.error fault, s)) :
    Leaves (α := β) bytes start widths rejected accepted' (.error fault, s) := by
  cases h with
  | rejected h => exact .rejected h
  | short pos h => exact .short pos h

/-- What is left behind a field that is there is left from its front. -/
theorem Leaves.cons {width : Nat} (hroom : start + width ≤ bytes.length)
    {result : Except Fault α × Source order}
    (h : Leaves bytes (start + width) widths rejected accepted result) :
    Leaves bytes start (width :: widths) rejected accepted result := by
  cases h with
  | accepted h => exact .accepted h
  | rejected h => exact .rejected h
  | short pos h =>
    have hleft : bytes.length - (start + width) = bytes.length - start - width := by omega
    rw [hleft] at h
    exact .short (by omega) (furthest_cons (by omega) h)

/-- **A field** is there, and its bytes are those that stand there; or the
source is left in front of it. -/
theorem leaves_field_bind [Field α] (hnext : start + Field.size α = next)
    {f : α → Decoder order β} (hstart : start ≤ bytes.length)
    (h : next ≤ bytes.length → ∀ v, Field.bytes order v = (bytes.drop start).take (Field.size α) →
      Leaves bytes next widths rejected accepted ((f v).run ⟨bytes, next⟩)) :
    Leaves bytes start (Field.size α :: widths) rejected accepted
      ((field >>= f).run ⟨bytes, start⟩) := by
  subst hnext
  rcases Nat.lt_or_ge bytes.length (start + Field.size α) with hlacks | hthere
  · have hpeek : (⟨bytes, start⟩ : Source order).peek (Field.size α) = .error .shortBuffer := by
      have hremaining : (⟨bytes, start⟩ : Source order).remaining = bytes.length - start := rfl
      exact (Source.peek_eq_error_iff _ _ _).2 ⟨rfl, by omega⟩
    rw [run_bind, field, run_take, hpeek]
    exact .short rfl (furthest_cons_of_lt (by omega) widths)
  · obtain ⟨octets, hoctets, hpeek⟩ := peek_at order hthere
    rw [run_bind, field, run_take, hpeek]
    refine .cons hthere (h hthere (Field.decode order octets) ?_)
    rw [Field.bytes, Field.encode_decode, hoctets]

/-- **A field that may be absent** takes its width, or none. -/
theorem leaves_fieldIf_bind (α : Type) [Field α] [Inhabited α] (present : Bool)
    {behind : List Nat}
    (hwidths : widths = (if present then [Field.size α] else []) ++ behind)
    (hnext : start + (if present then Field.size α else 0) = next) {f : α → Decoder order β}
    (hstart : start ≤ bytes.length)
    (h : next ≤ bytes.length → ∀ v,
      Leaves bytes next behind rejected accepted ((f v).run ⟨bytes, next⟩)) :
    Leaves bytes start widths rejected accepted ((fieldIf present >>= f).run ⟨bytes, start⟩) := by
  subst hwidths
  cases present with
  | true => exact leaves_field_bind hnext hstart fun hthere v _ => h hthere v
  | false =>
    obtain rfl : start = next := hnext
    exact h hstart default

/-- A condition holds, or the source is left where it is. -/
theorem leaves_require_bind (p : Prop) [Decidable p] {f : Unit → Decoder order β}
    (hrejected : ¬ p → rejected start)
    (h : p → Leaves bytes start widths rejected accepted ((f ()).run ⟨bytes, start⟩)) :
    Leaves bytes start widths rejected accepted ((require p >>= f).run ⟨bytes, start⟩) := by
  rw [run_require_bind]
  split
  · next hp => exact h hp
  · next hp => exact .rejected (hrejected hp)

/-- **Room that is asked for in front of reads that check nothing:** without
it the source is left in front of them all. -/
theorem leaves_ensure_bind {size : Nat} {f : Unit → Decoder order β} (hf : (f ()).Fixed size)
    (hstart : start ≤ bytes.length) (h : start + size ≤ bytes.length → accepted (start + size)) :
    Leaves bytes start [] rejected accepted ((ensure size >>= f).run ⟨bytes, start⟩) := by
  have hrun : (ensure size >>= f).run (⟨bytes, start⟩ : Source order) =
      if size ≤ bytes.length - start then (f ()).run ⟨bytes, start⟩
      else (.error .shortBuffer, ⟨bytes, start⟩) := rfl
  rw [hrun]
  split
  · next hroom =>
    obtain ⟨v, hv⟩ := run_of_fixed hf (s := (⟨bytes, start⟩ : Source order)) hroom
    rw [hv]
    exact .accepted (h (by omega))
  · exact .short rfl (furthest_nil _)

/-! ## Decoders that take fields and do nothing else -/

/-- **Fields of these widths are taken in a row,** and none is checked. -/
def Takes : Decoder order α → List Nat → Prop
  | done _, widths => widths = []
  | reject, _ | room _ _, _ => False
  | take n next, widths => ∃ behind, widths = n :: behind ∧ ∀ octets, (next octets).Takes behind

@[simp] theorem takes_pure (value : α) (widths : List Nat) :
    (pure value : Decoder order α).Takes widths ↔ widths = [] := Iff.rfl

@[simp] theorem takes_field_bind [Field α] (f : α → Decoder order β) (width : Nat)
    (behind : List Nat) :
    (field >>= f).Takes (width :: behind) ↔ width = Field.size α ∧ ∀ v, (f v).Takes behind := by
  constructor
  · rintro ⟨_, hwidths, hnext⟩
    obtain ⟨rfl, rfl⟩ := List.cons.inj hwidths
    refine ⟨rfl, fun v => ?_⟩
    rw [← Field.decode_encode order v]
    exact hnext (Field.encode order v)
  · rintro ⟨rfl, h⟩
    exact ⟨behind, rfl, fun octets => h (Field.decode order octets)⟩

/-- A row is such fields, whatever is made of its values. -/
theorem takes_row {α τ : Type} (row : Row τ) (f : τ → α) :
    (do let values ← row.decoder order; pure (f values)).Takes row.widths := by
  induction row with
  | nil => rfl
  | cons behind ih =>
    rw [Row.decoder, bind_assoc]
    refine (takes_field_bind _ _ _).2 ⟨rfl, fun first => ?_⟩
    rw [bind_assoc]
    exact ih fun values => f (first, values)

/-- Such a decoder accepts behind them all, or is short. -/
theorem leaves_of_takes {d : Decoder order α} (h : d.Takes widths) (hstart : start ≤ bytes.length)
    (haccepted : start + widths.sum ≤ bytes.length → accepted (start + widths.sum)) :
    Leaves bytes start widths rejected accepted (d.run ⟨bytes, start⟩) := by
  induction d generalizing start widths with
  | done value =>
    obtain rfl : widths = [] := h
    exact leaves_pure value (haccepted hstart)
  | reject => cases h
  | room n next ih => cases h
  | take n next ih =>
    obtain ⟨behind, rfl, hnext⟩ := h
    rw [List.sum_cons] at haccepted
    refine leaves_field_bind (α := Octets n) rfl hstart fun hthere octets _ => ?_
    refine ih octets (hnext octets) hthere fun hall => ?_
    rw [Field.size_octets, Nat.add_assoc] at hall ⊢
    exact haccepted hall

end Decoder

end TradeWire
