import TradeWire.Proofs.Verdict
/-!
# Room — looking ahead moves a failure, and changes nothing else

A cross asks for room for all its legs before it reads the first. That
saves the work of reading legs for a message that is cut short in a later
one; it is not to decide anything. It does not, because a leg takes the
same bytes whatever they are, and nothing in it is checked: where all fit,
none can fail, and where not, the first that does not fit fails for the
very reason for which there is no room (`outcome_ensure_bind`).

What a run comes to is compared by its `outcome`, which forgets where a
run that fails has left its source. Outcomes are put together as the
decoders are (`outcome_bind`), so what is shown of the legs holds of the
whole message.
-/

namespace TradeWire

namespace Source

variable {order : ByteOrder}

theorem advance_zero_mul (s : Source order) (size : Nat) : s.advance (0 * size) = s := by
  rw [Nat.zero_mul]
  rfl

theorem advance_advance_mul (s : Source order) (size k : Nat) :
    (s.advance size).advance (k * size) = s.advance ((k + 1) * size) := by
  rw [s.advance_advance, Nat.succ_mul, Nat.add_comm]

end Source

namespace Decoder

variable {order : ByteOrder} {α β : Type} {size n : Nat}

/-! ## Outcomes -/

/-- **What a decoder comes to** on a source: a value and where the source is
left, or a fault, wherever that was found. -/
def outcome (d : Decoder order α) (s : Source order) : Except Fault (α × Source order) :=
  match d.run s with
  | (.ok value, t) => .ok (value, t)
  | (.error fault, _) => .error fault

theorem outcome_bind (d : Decoder order α) (f : α → Decoder order β) (s : Source order) :
    (d >>= f).outcome s = d.outcome s >>= fun found => (f found.1).outcome found.2 := by
  unfold outcome
  rw [run_bind]
  rcases d.run s with ⟨_ | _, _⟩ <;> rfl

theorem outcome_measured (d : Decoder order α) (s : Source order) :
    d.measured.outcome s =
      (d.outcome s).map fun found => ((found.1, found.2.pos - s.pos), found.2) := by
  unfold outcome
  rw [run_measured]
  rcases d.run s with ⟨_ | _, _⟩ <;> rfl

/-- A decoder that fails comes to its fault. -/
theorem outcome_of_run_error {d : Decoder order α} {s : Source order} {fault : Fault}
    (h : (d.run s).1 = .error fault) : d.outcome s = .error fault := by
  have hrun : d.run s = (.error fault, (d.run s).2) := Prod.ext h rfl
  unfold outcome
  rw [hrun]

/-- **Room asked for in front of reads that take as much** and check
nothing: what they come to is the same without it. -/
theorem outcome_ensure_bind {d : Decoder order α} (h : d.Fixed n) (s : Source order) :
    (ensure n >>= fun _ => d).outcome s = d.outcome s := by
  have hrun : (ensure n >>= fun _ => d).run s =
      if n ≤ s.remaining then d.run s else (.error .shortBuffer, s) := rfl
  rcases Nat.lt_or_ge s.remaining n with hlacks | hroom
  · rw [if_neg (Nat.not_le.2 hlacks)] at hrun
    rw [outcome_of_run_error (run_of_atLeast h.atLeast hlacks)]
    exact outcome_of_run_error (congrArg Prod.fst hrun)
  · rw [if_pos hroom] at hrun
    unfold outcome
    rw [hrun]

/-! ## Reads in a row -/

/-- The first of several reads, and the others behind it. -/
theorem run_repeated_succ (d : Decoder order α) (n : Nat) (s : Source order) :
    (repeated (n + 1) d).run s =
      match d.run s with
      | (.ok first, t) =>
        match (repeated n d).run t with
        | (.ok rest, u) => (.ok (first :: rest), u)
        | (.error fault, u) => (.error fault, u)
      | (.error fault, t) => (.error fault, t) := by
  rw [repeated, run_bind]
  rcases d.run s with ⟨_ | first, t⟩
  · rfl
  · dsimp only
    rw [run_bind]
    rcases (repeated n d).run t with ⟨_ | rest, u⟩ <;> rfl

/-- **Where all fit, none fails:** each begins behind those before it. -/
theorem run_repeated {d : Decoder order α} (h : d.Fixed size) (n : Nat) {s : Source order}
    (hroom : n * size ≤ s.remaining) :
    ∃ values, values.length = n ∧ (repeated n d).run s = (.ok values, s.advance (n * size)) ∧
      ∀ k (hk : k < values.length),
        d.run (s.advance (k * size)) = (.ok values[k], s.advance ((k + 1) * size)) := by
  induction n generalizing s with
  | zero =>
    rw [s.advance_zero_mul]
    exact ⟨[], rfl, rfl, fun k hk => absurd hk (Nat.not_lt_zero k)⟩
  | succ n ih =>
    rw [Nat.succ_mul] at hroom
    have hrest : n * size ≤ (s.advance size).remaining := by
      rw [s.remaining_advance]
      omega
    obtain ⟨first, hfirst⟩ := run_of_fixed h (show size ≤ s.remaining by omega)
    obtain ⟨rest, hlen, hrun, heach⟩ := ih hrest
    refine ⟨first :: rest, congrArg (· + 1) hlen, ?_, ?_⟩
    · rw [run_repeated_succ, hfirst]
      dsimp only
      rw [hrun, s.advance_advance_mul]
    · intro k hk
      cases k with
      | zero =>
        rw [s.advance_zero_mul, Nat.zero_add, Nat.one_mul]
        exact hfirst
      | succ k =>
        have hnext := heach k (Nat.lt_of_succ_lt_succ hk)
        rw [s.advance_advance_mul, s.advance_advance_mul] at hnext
        exact hnext

/-- **Where not all fit, the first that does not is the one that fails.** -/
theorem run_repeated_of_lt {d : Decoder order α} (h : d.Fixed size) (n : Nat) {s : Source order}
    (hlacks : s.remaining < n * size) :
    ∃ k < n, k * size ≤ s.remaining ∧ s.remaining < (k + 1) * size ∧
      (d.run (s.advance (k * size))).1 = .error .shortBuffer ∧
      (repeated n d).run s = (.error .shortBuffer, (d.run (s.advance (k * size))).2) := by
  induction n generalizing s with
  | zero =>
    rw [Nat.zero_mul] at hlacks
    exact absurd hlacks (Nat.not_lt_zero _)
  | succ n ih =>
    rcases Nat.lt_or_ge s.remaining size with hshort | hfits
    · have hfirst : (d.run s).1 = .error .shortBuffer := run_of_atLeast h.atLeast hshort
      have hrun : d.run s = (.error .shortBuffer, (d.run s).2) := Prod.ext hfirst rfl
      refine ⟨0, Nat.succ_pos n, by omega, by omega, ?_, ?_⟩
      · rw [s.advance_zero_mul]
        exact hfirst
      · rw [s.advance_zero_mul, run_repeated_succ, hrun]
    · -- the first fits, so the one that fails is among the others
      have hleft := s.remaining_advance size
      have hrest : (s.advance size).remaining < n * size := by
        rw [Nat.succ_mul] at hlacks
        omega
      obtain ⟨first, hfirst⟩ := run_of_fixed h hfits
      obtain ⟨k, hk, hfit, hnot, hfails, hrun⟩ := ih hrest
      rw [s.advance_advance_mul] at hfails hrun
      refine ⟨k + 1, Nat.succ_lt_succ hk, ?_, ?_, hfails, ?_⟩
      · rw [Nat.succ_mul]
        omega
      · rw [Nat.succ_mul]
        omega
      · rw [run_repeated_succ, hfirst]
        dsimp only
        rw [hrun]

end Decoder

namespace OrderEntry

open Decoder

/-- What a frame comes to hangs on what its body comes to. -/
theorem outcome_framed_congr {α : Type} (type : UInt8) {body other : Header → Decoder .little α}
    (h : ∀ header s, (body header).outcome s = (other header).outcome s) (s : Source .little) :
    (framed type body).outcome s = (framed type other).outcome s := by
  unfold framed
  simp only [outcome_bind, outcome_measured, h]

namespace NewOrderCross

/-- Reads a cross over a record without asking for room for its legs: they
are read one by one, up to the first that does not fit. -/
def refillEach (r : NewOrderCross) : Decoder .little NewOrderCross :=
  framed typeByte fun header => do
    let (r, count) ← r.refillHead header
    r.refillGroups count

theorem outcome_refill (prior : NewOrderCross) (s : Source .little) :
    prior.refill.outcome s = prior.refillEach.outcome s := by
  refine outcome_framed_congr typeByte (fun header t => ?_) s
  rw [outcome_bind, outcome_bind]
  refine bind_congr fun found => ?_
  obtain ⟨⟨r, count⟩, u⟩ := found
  exact outcome_ensure_bind (r.fixed_refillGroups count) u

/-- Reading the legs is reading one leg several times over. -/
theorem run_refillGroups (r : NewOrderCross) (count : UInt8) (s : Source .little) :
    (r.refillGroups count).run s =
      match (repeated count.toNat (CrossGroup.decoder r.presence)).run s with
      | (.ok groups, t) => (.ok { r with groups }, t)
      | (.error fault, t) => (.error fault, t) := by
  rw [refillGroups, run_bind]
  rcases (repeated count.toNat (CrossGroup.decoder r.presence)).run s with ⟨_ | _, _⟩ <;> rfl

/-- **The room asked for in front of the legs decides nothing.** A cross
comes to the same without it, over whatever record and from wherever a
source stands: the same fault, or the same record and the source left at
the same place. Where there is room, every leg is read, each behind those
before it, and the source is left behind as many legs as the count says.
Where there is none, the source is left in front of the legs; without the
question the first legs are read, as many as fit, and the next one fails. -/
theorem room_decides_nothing :
    (∀ (prior : NewOrderCross) (s : Source .little),
      prior.refill.outcome s = prior.refillEach.outcome s) ∧
    ∀ (r : NewOrderCross) (count : UInt8) (s : Source .little),
      let size := CrossGroup.size r.presence
      let leg := CrossGroup.decoder r.presence
      (count.toNat * size ≤ s.remaining →
        ∃ groups : List CrossGroup, groups.length = count.toNat ∧
          (∀ k (hk : k < groups.length),
            leg.run (s.advance (k * size)) = (.ok groups[k], s.advance ((k + 1) * size))) ∧
          (r.refillGroups count).run s =
            (.ok { r with groups }, s.advance (count.toNat * size))) ∧
      (s.remaining < count.toNat * size →
        (ensure (count.toNat * size) >>= fun _ => r.refillGroups count).run s =
          (.error .shortBuffer, s) ∧
        ∃ k < count.toNat, k * size ≤ s.remaining ∧ s.remaining < (k + 1) * size ∧
          (leg.run (s.advance (k * size))).1 = .error .shortBuffer ∧
          (r.refillGroups count).run s =
            (.error .shortBuffer, (leg.run (s.advance (k * size))).2)) := by
  refine ⟨outcome_refill, fun r count s => ?_⟩
  intro size leg
  have hleg : leg.Fixed size := CrossGroup.fixed_decoder r.presence
  refine ⟨fun hroom => ?_, fun hlacks => ⟨if_neg (Nat.not_le.2 hlacks), ?_⟩⟩
  · obtain ⟨groups, hlen, hrun, heach⟩ := run_repeated hleg count.toNat hroom
    refine ⟨groups, hlen, heach, ?_⟩
    rw [run_refillGroups, hrun]
  · obtain ⟨k, hk, hfit, hnot, hfails, hrun⟩ := run_repeated_of_lt hleg count.toNat hlacks
    refine ⟨k, hk, hfit, hnot, hfails, ?_⟩
    rw [run_refillGroups, hrun]

/-- A cross that announces two hundred legs and has none. -/
def inflated : Bytes :=
  [0xBA, 0xBA, 45, 0, 0x41, 0, 0, 0, 0, 0] ++ List.replicate 36 0 ++ [200]

/-- Room for two legs that show no account, and for some of a third. -/
def twoLegsAndSome : Source .little := ⟨List.replicate 60 49, 3⟩

theorem room_decides_nothing_inflated :
    (({} : NewOrderCross).refill.outcome ⟨inflated, 0⟩ = .error .shortBuffer ∧
      ({} : NewOrderCross).refillEach.outcome ⟨inflated, 0⟩ = .error .shortBuffer) ∧
    (2 * 25 ≤ twoLegsAndSome.remaining ∧
      ∃ groups : List CrossGroup, groups.length = 2 ∧
        (({} : NewOrderCross).refillGroups 2).run twoLegsAndSome =
          (.ok { groups }, twoLegsAndSome.advance 50)) ∧
    twoLegsAndSome.remaining < 3 * 25 ∧
      (({} : NewOrderCross).refillGroups 3).run twoLegsAndSome =
        (.error .shortBuffer, twoLegsAndSome.advance 55) := by
  obtain ⟨houtcome, hlegs⟩ := room_decides_nothing
  have hshort : ({} : NewOrderCross).refill.outcome ⟨inflated, 0⟩ = .error .shortBuffer := by rfl
  have hroom : 2 * 25 ≤ twoLegsAndSome.remaining := by decide
  have hlacks : twoLegsAndSome.remaining < 3 * 25 := by decide
  obtain ⟨groups, hlen, -, hrun⟩ := (hlegs {} 2 twoLegsAndSome).1 hroom
  obtain ⟨-, k, -, hfit, hnot, -, hfails⟩ := (hlegs {} 3 twoLegsAndSome).2 hlacks
  have htwo : k = 2 := by
    have hremaining : twoLegsAndSome.remaining = 57 := rfl
    have hat : k * 25 ≤ twoLegsAndSome.remaining := hfit
    have hbehind : twoLegsAndSome.remaining < (k + 1) * 25 := hnot
    omega
  subst htwo
  exact ⟨⟨hshort, (houtcome _ _).symm.trans hshort⟩, ⟨hroom, groups, hlen, hrun⟩, hlacks, hfails⟩

end NewOrderCross

end OrderEntry

end TradeWire
