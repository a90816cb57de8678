import TradeWire.Decoder
/-!
# Word sources — positions a machine can hold

The position of a source is a number, of any size. A machine has a word of
64 bits for it, and a word can wrap. So here is a source with such a word
for its position, which halts where a sum is too great for a word, a
difference is negative, or a slice is not within the bytes.

It never halts on fewer bytes than a word can count, whatever is asked for,
and does what the source does (`run_ofSource`). What is asked for is held
against what is left before anything is added to the position, and what is
left is a difference only while the position is within the bytes: that is
the invariant.
-/

namespace TradeWire

/-! ## Words -/

namespace Word

/-- The sum of two words, if a word can hold it. -/
def add? (a b : UInt64) : Option UInt64 :=
  if a.toNat + b.toNat < UInt64.size then some (a + b) else none

/-- The difference of two words, if it is not negative. -/
def sub? (a b : UInt64) : Option UInt64 :=
  if b.toNat ≤ a.toNat then some (a - b) else none

section

variable {a b : Nat}

theorem toNat_ofNat (h : a < UInt64.size) : (UInt64.ofNat a).toNat = a :=
  UInt64.toNat_ofNat_of_lt' h

theorem add?_ofNat (h : a + b < UInt64.size) :
    add? (UInt64.ofNat a) (UInt64.ofNat b) = some (UInt64.ofNat (a + b)) := by
  have ha : (UInt64.ofNat a).toNat = a := toNat_ofNat (by omega)
  have hb : (UInt64.ofNat b).toNat = b := toNat_ofNat (by omega)
  rw [add?, ha, hb, if_pos h, UInt64.ofNat_add]

theorem sub?_ofNat (h : b ≤ a) (ha : a < UInt64.size) :
    sub? (UInt64.ofNat a) (UInt64.ofNat b) = some (UInt64.ofNat (a - b)) := by
  have ha' : (UInt64.ofNat a).toNat = a := toNat_ofNat ha
  have hb' : (UInt64.ofNat b).toNat = b := toNat_ofNat (by omega)
  rw [sub?, ha', hb', if_pos h, UInt64.ofNat_sub h]

end

end Word

/-! ## Sources -/

/-- **Bytes being read, the position a word.** Each operation gives nothing
where it halts. -/
structure WordSource where
  bytes : Bytes
  pos : UInt64
  deriving DecidableEq

namespace WordSource

variable {order : ByteOrder} {α : Type} {n : Nat}

/-- How many bytes are left. -/
def remaining (m : WordSource) : Option UInt64 :=
  Word.sub? (UInt64.ofNat m.bytes.length) m.pos

/-- How far the position has come from an earlier one. -/
def since (m : WordSource) (start : UInt64) : Option UInt64 := Word.sub? m.pos start

/-- The next `n` bytes: the slice from the position to `n` behind it. -/
def peek (m : WordSource) (n : Nat) : Option (Except Fault (Octets n)) := do
  let left ← m.remaining
  if n ≤ left.toNat then
    let stop ← Word.add? m.pos (UInt64.ofNat n)
    let octets ← Octets.ofList? n ((m.bytes.take stop.toNat).drop m.pos.toNat)
    return .ok octets
  else return .error .shortBuffer

/-- The source `n` bytes further on. -/
def advance (m : WordSource) (n : Nat) : Option WordSource := do
  let pos ← Word.add? m.pos (UInt64.ofNat n)
  return { m with pos }

/-- Takes the next `n` bytes. -/
def take (m : WordSource) (n : Nat) : Option (Except Fault (Octets n) × WordSource) := do
  match ← m.peek n with
  | .ok octets =>
    let moved ← m.advance n
    return (.ok octets, moved)
  | .error fault => return (.error fault, m)

/-- Passes over the next `n` bytes. -/
def skip (m : WordSource) (n : Nat) : Option (Except Fault Unit × WordSource) := do
  let (outcome, moved) ← m.take n
  return (outcome.map fun _ => (), moved)

/-- Runs a decoder. A message may compare how far it has come since its
start with a length it declares, so this is computed at every turn. -/
def run (start : UInt64) : Decoder order α → WordSource →
    Option (Except Fault α × WordSource)
  | .done value, m => do
    let _ ← m.since start
    return (.ok value, m)
  | .reject, m => do
    let _ ← m.since start
    return (.error .badValue, m)
  | .take n next, m => do
    let _ ← m.since start
    match ← m.take n with
    | (.ok octets, moved) => run start (next octets) moved
    | (.error fault, moved) => return (.error fault, moved)
  | .room n next, m => do
    let _ ← m.since start
    let left ← m.remaining
    if n ≤ left.toNat then run start next m else return (.error .shortBuffer, m)

/-! ## A word source does what the source does -/

/-- A source, its position as a word. -/
def ofSource (s : Source order) : WordSource := ⟨s.bytes, UInt64.ofNat s.pos⟩

section

variable {s : Source order} (hpos : s.pos ≤ s.bytes.length) (hsize : s.bytes.length < UInt64.size)
include hpos hsize

theorem toNat_pos_ofSource : (ofSource s).pos.toNat = s.pos := Word.toNat_ofNat (by omega)

theorem remaining_ofSource : (ofSource s).remaining = some (UInt64.ofNat s.remaining) :=
  Word.sub?_ofNat hpos hsize

theorem since_ofSource {start : Nat} (hstart : start ≤ s.pos) :
    (ofSource s).since (UInt64.ofNat start) = some (UInt64.ofNat (s.pos - start)) :=
  Word.sub?_ofNat hstart (by omega)

/-- What is left is enough to move over, and no sum is too great. -/
theorem advance_ofSource (h : n ≤ s.remaining) :
    (ofSource s).advance n = some (ofSource (s.advance n)) := by
  have hremaining : s.remaining = s.bytes.length - s.pos := rfl
  have hstop : Word.add? (ofSource s).pos (UInt64.ofNat n) = some (UInt64.ofNat (s.pos + n)) :=
    Word.add?_ofNat (by omega)
  rw [advance, hstop]
  rfl

theorem peek_ofSource (n : Nat) : (ofSource s).peek n = some (s.peek n) := by
  have hremaining : s.remaining = s.bytes.length - s.pos := rfl
  have hleft : (UInt64.ofNat s.remaining).toNat = s.remaining := Word.toNat_ofNat (by omega)
  rw [peek, remaining_ofSource hpos hsize, Option.bind_eq_bind, Option.bind_some, hleft,
    Source.peek]
  split
  · next h =>
    have hstop : Word.add? (ofSource s).pos (UInt64.ofNat n) = some (UInt64.ofNat (s.pos + n)) :=
      Word.add?_ofNat (by omega)
    have hslice : (s.bytes.take (s.pos + n)).drop s.pos = (s.bytes.drop s.pos).take n := by
      rw [List.drop_take, Nat.add_sub_cancel_left]
    have hlength : ((s.bytes.drop s.pos).take n).length = n := by
      rw [List.length_take, List.length_drop]
      omega
    rw [hstop, Option.bind_eq_bind, Option.bind_some, Word.toNat_ofNat (by omega),
      toNat_pos_ofSource hpos hsize]
    change ((Octets.ofList? n ((s.bytes.take (s.pos + n)).drop s.pos)).bind fun octets =>
      some (Except.ok octets)) = _
    rw [hslice, Octets.ofList?, dif_pos hlength]
    rfl
  · rfl

theorem take_ofSource (n : Nat) :
    (ofSource s).take n = some ((s.take n).1, ofSource (s.take n).2) := by
  rw [take, peek_ofSource hpos hsize, Option.bind_eq_bind, Option.bind_some, Source.take]
  cases hpeek : s.peek n with
  | error fault => rfl
  | ok octets =>
    dsimp only
    rw [advance_ofSource hpos hsize (Source.le_remaining_of_peek hpeek)]
    rfl

theorem skip_ofSource (n : Nat) :
    (ofSource s).skip n = some ((s.skip n).1, ofSource (s.skip n).2) := by
  rw [skip, take_ofSource hpos hsize, Option.bind_eq_bind, Option.bind_some, Source.skip,
    Source.take, Source.peek]
  by_cases h : n ≤ s.remaining
  · rw [if_pos h, dif_pos h]
    rfl
  · rw [if_neg h, dif_neg h]
    rfl

end

/-- **A decoder runs on words as it does on numbers,** and never halts. -/
theorem run_ofSource (d : Decoder order α) {s : Source order} (hpos : s.pos ≤ s.bytes.length)
    (hsize : s.bytes.length < UInt64.size) {start : Nat} (hstart : start ≤ s.pos) :
    run (UInt64.ofNat start) d (ofSource s) = some ((d.run s).1, ofSource (d.run s).2) := by
  induction d generalizing s with
  | done value =>
    rw [run, since_ofSource hpos hsize hstart]
    rfl
  | reject =>
    rw [run, since_ofSource hpos hsize hstart]
    rfl
  | take n next ih =>
    rw [run, since_ofSource hpos hsize hstart, Option.bind_eq_bind, Option.bind_some,
      take_ofSource hpos hsize, Option.bind_eq_bind, Option.bind_some, Decoder.run, Source.take]
    cases hpeek : s.peek n with
    | error fault => rfl
    | ok octets =>
      have hroom : n ≤ s.bytes.length - s.pos := Source.le_remaining_of_peek hpeek
      have hmoved : s.pos + n ≤ s.bytes.length := by omega
      have hfurther : start ≤ s.pos + n := by omega
      exact ih octets (s := s.advance n) hmoved hsize hfurther
  | room n next ih =>
    have hremaining : s.remaining = s.bytes.length - s.pos := rfl
    have hleft : (UInt64.ofNat s.remaining).toNat = s.remaining := Word.toNat_ofNat (by omega)
    rw [run, since_ofSource hpos hsize hstart, Option.bind_eq_bind, Option.bind_some,
      remaining_ofSource hpos hsize, Option.bind_some, hleft, Decoder.run]
    split
    · exact ih hpos hsize hstart
    · rfl

end WordSource

end TradeWire
