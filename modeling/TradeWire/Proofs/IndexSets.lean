import Mathlib.Combinatorics.Colex
import TradeWire.Presence
import TradeWire.Proofs.Script
/-!
# Index sets — a packed word and the set it stands for

A presence set is a word, and everything asked of it is asked of the
word: a bit is set by an `or`, looked at by a shift, held against a mask.
What is meant is a finite set of indices below the width. The two go
together step by step: whatever is done to the word, `Command.act` says
what becomes of the set, without a word in sight, and after any run the
word stands for the set that comes of the same commands (`members_run`).

The set of a word is that of its binary digits (`members`), so the word is
the sum of the powers of two at its members, and each determines the
other. That the word is worked on in a register wider than itself makes no
difference (`widened`): its bits keep their places there, and an index
below the width is one that a shift can reach.
-/

namespace TradeWire

namespace Presence

variable {w : Width} {p : Presence w} {i : Nat}

/-! ## The set of a word -/

/-- The places of the ones among the binary digits of a number. -/
def digits (n : Nat) : Finset Nat := n.bitIndices.toFinset

/-- **The set a word stands for:** its binary digits. -/
def members (p : Presence w) : Finset Nat := digits p.bits.toNat

theorem mem_digits {n : Nat} : i ∈ digits n ↔ n.testBit i = true := by
  rw [digits, List.mem_toFinset, Nat.mem_bitIndices]

theorem mem_members : i ∈ p.members ↔ p.contains i = true := by
  rw [members, mem_digits, BitVec.testBit_toNat, contains_eq_getLsbD]

theorem lt_bits_of_contains (h : p.contains i = true) : i < w.bits := by
  rw [contains, Bool.and_eq_true, decide_eq_true_eq] at h
  exact h.1

/-- A word is the sum of the powers of two at its members. -/
theorem toNat_bits_eq_sum (p : Presence w) : p.bits.toNat = ∑ i ∈ p.members, 2 ^ i :=
  (Finset.sum_toFinset_bitIndices_two_pow p.bits.toNat).symm

/-- Words with the same members are the same. -/
theorem members_inj {q : Presence w} : p.members = q.members ↔ p = q := by
  constructor
  · intro h
    apply ext_contains
    intro i
    rw [Bool.eq_iff_iff, ← mem_members, ← mem_members, h]
  · rintro rfl
    rfl

@[simp] theorem members_empty : (empty : Presence w).members = ∅ := by
  ext i
  simp [mem_members]

theorem members_insert (p : Presence w) (h : i < w.bits) :
    (p.insert i).members = {i} ∪ p.members := by
  ext j
  rw [mem_members, contains_insert, Finset.mem_union, Finset.mem_singleton, mem_members]
  by_cases hj : j = i
  · simp [hj, h]
  · simp [hj]

/-- Within a set of fields is within its members. -/
theorem within_iff_subset (defined : Presence w) :
    p.Within defined ↔ p.members ⊆ defined.members := by
  rw [within_iff]
  constructor
  · intro h i hi
    exact mem_members.2 (h i (mem_members.1 hi))
  · intro h i hi
    exact mem_members.1 (h (mem_members.2 hi))

/-- **What is seen of a word that stands for a set.** -/
structure Represents (p : Presence w) (indices : Finset Nat) : Prop where
  lt_bits : ∀ i ∈ indices, i < w.bits
  toNat_bits : p.bits.toNat = ∑ i ∈ indices, 2 ^ i
  toNat_bits_lt : p.bits.toNat < 2 ^ w.bits
  /-- Any index can be asked for, those beyond the width included. -/
  contains_iff : ∀ i, p.contains i = true ↔ i ∈ indices
  /-- The members are listed in ascending order, each once. -/
  toList_ascending : p.toList.Pairwise (· < ·)
  mem_toList_iff : ∀ i, i ∈ p.toList ↔ i ∈ indices
  /-- A mask refuses a member that it has no digit for. -/
  checkWithin_eq : ∀ mask : BitVec w.bits, p.checkWithin ⟨mask⟩ =
    if indices ⊆ digits mask.toNat then .ok () else .error .badValue

theorem represents_members (p : Presence w) : p.Represents p.members where
  lt_bits i hi := lt_bits_of_contains (mem_members.1 hi)
  toNat_bits := p.toNat_bits_eq_sum
  toNat_bits_lt := p.bits.isLt
  contains_iff i := mem_members.symm
  toList_ascending := List.pairwise_lt_range.filter p.contains
  mem_toList_iff i := (p.mem_toList i).trans mem_members.symm
  checkWithin_eq mask := by
    have hsubset : p.Within ⟨mask⟩ ↔ p.members ⊆ digits mask.toNat := within_iff_subset _
    unfold checkWithin
    by_cases h : p.Within ⟨mask⟩
    · rw [if_pos h, if_pos (hsubset.1 h)]
    · rw [if_neg h, if_neg fun hmembers => h (hsubset.2 hmembers)]

/-! ## The word in a register -/

theorem bits_le (w : Width) : w.bits ≤ 64 := by cases w <;> decide

/-- **The word in a register of 64 bits:** it is the same number there, and
what is asked of it is worked out there by shifts and masks. -/
structure Widened (p : Presence w) : Prop where
  toNat_toWord : p.toWord.toNat = p.bits.toNat
  ofWord_toWord : ofWord p.toWord = p
  insert_eq : ∀ i, i < w.bits → p.insert i = ofWord (p.toWord ||| 1 <<< UInt64.ofNat i)
  contains_eq : ∀ i, i < w.bits → p.contains i = decide (p.toWord >>> UInt64.ofNat i &&& 1 ≠ 0)
  within_iff : ∀ mask : Presence w, p.Within mask ↔ p.toWord &&& ~~~mask.toWord = 0

theorem testBit_toWord (p : Presence w) (i : Nat) : p.toWord.toNat.testBit i = p.contains i := by
  have hlt : p.bits.toNat < 2 ^ 64 :=
    Nat.lt_of_lt_of_le p.bits.isLt (Nat.pow_le_pow_right (by decide) (bits_le w))
  have hsame : p.toWord.toNat = p.bits.toNat := by
    change (p.bits.setWidth 64).toNat = _
    rw [BitVec.toNat_setWidth, Nat.mod_eq_of_lt hlt]
  rw [hsame, BitVec.testBit_toNat, contains_eq_getLsbD]

theorem contains_ofWord (word : UInt64) (i : Nat) :
    (ofWord word : Presence w).contains i = (decide (i < w.bits) && word.toNat.testBit i) := by
  rw [contains_eq_getLsbD, ofWord, BitVec.getLsbD_setWidth]
  rfl

/-- An index below the width is one that a shift can reach. -/
theorem toNat_ofNat_mod (h : i < w.bits) : (UInt64.ofNat i).toNat % 64 = i := by
  have hbits := bits_le w
  rw [UInt64.toNat_ofNat']
  omega

theorem testBit_one_shiftLeft (h : i < w.bits) (j : Nat) :
    (1 <<< UInt64.ofNat i : UInt64).toNat.testBit j = decide (i = j) := by
  have hbits := bits_le w
  have hpow : 2 ^ i < 2 ^ 64 := Nat.pow_lt_pow_right (by decide) (by omega)
  rw [UInt64.toNat_shiftLeft, toNat_ofNat_mod h, UInt64.toNat_one, Nat.one_shiftLeft,
    Nat.mod_eq_of_lt hpow, Nat.testBit_two_pow]

theorem testBit_not (word : UInt64) (i : Nat) :
    (~~~word).toNat.testBit i = (decide (i < 64) && !word.toNat.testBit i) := by
  have hflipped : (~~~word).toNat = 2 ^ 64 - (word.toNat + 1) := by
    have hnot := UInt64.toNat_not word
    have hsize : UInt64.size = 2 ^ 64 := rfl
    omega
  rw [hflipped, Nat.testBit_two_pow_sub_succ word.toNat_lt]

/-- The bits that a mask leaves of a word are its members without a digit
there. -/
theorem testBit_unmasked (p mask : Presence w) (i : Nat) :
    (p.toWord &&& ~~~mask.toWord).toNat.testBit i = (p.contains i && !mask.contains i) := by
  rw [UInt64.toNat_and, Nat.testBit_and, testBit_not, testBit_toWord, testBit_toWord]
  by_cases hi : i < 64
  · rw [decide_eq_true hi, Bool.true_and]
  · have hbits := bits_le w
    have hbeyond : p.contains i = false := by
      simp [contains, show ¬ i < w.bits by omega]
    rw [hbeyond, Bool.false_and, Bool.false_and]

/-- **A register makes no difference.** -/
theorem widened (p : Presence w) : p.Widened where
  toNat_toWord := by
    apply Nat.eq_of_testBit_eq
    intro i
    rw [testBit_toWord, BitVec.testBit_toNat, contains_eq_getLsbD]
  ofWord_toWord := by
    apply ext_contains
    intro i
    rw [contains_ofWord, testBit_toWord]
    by_cases hi : i < w.bits
    · rw [decide_eq_true hi, Bool.true_and]
    · simp [contains, hi]
  insert_eq i h := by
    apply ext_contains
    intro j
    rw [contains_ofWord, contains_insert, UInt64.toNat_or, Nat.testBit_or, testBit_toWord,
      testBit_one_shiftLeft h]
    by_cases hj : j < w.bits
    · simp [hj, Bool.or_comm, eq_comm]
    · simp [contains, hj]
  contains_eq i h := by
    have hbit : (p.toWord >>> UInt64.ofNat i &&& 1).toNat = (p.contains i).toNat := by
      rw [UInt64.toNat_and, UInt64.toNat_shiftRight, toNat_ofNat_mod h, UInt64.toNat_one,
        Nat.and_one_is_mod, ← testBit_toWord, Nat.toNat_testBit, Nat.shiftRight_eq_div_pow]
    have hzero : p.toWord >>> UInt64.ofNat i &&& 1 = 0 ↔ p.contains i = false := by
      rw [← UInt64.toNat_inj, hbit]
      cases p.contains i <;> decide
    simp [hzero]
  within_iff mask := by
    rw [within_iff, ← UInt64.toNat_inj]
    constructor
    · intro h
      apply Nat.eq_of_testBit_eq
      intro i
      rw [testBit_unmasked]
      by_cases hi : p.contains i = true
      · simp [h i hi]
      · simp [hi]
    · intro h i hi
      have hbit := p.testBit_unmasked mask i
      rw [h, hi] at hbit
      simpa using hbit

/-! ## Commands -/

/-- **What can be done to a word.** Writing leaves it as it is, and reading
puts what stands at a source in its place. -/
inductive Command (w : Width) where
  /-- Any word of the width. -/
  | ofBits (bits : BitVec w.bits)
  | insert (i : Fin w.bits)
  | encode {order : ByteOrder} (sink : Sink order)
  | decode {order : ByteOrder} (source : Source order)

namespace Command

/-- What comes of a command, and the word afterwards. -/
def perform : Command w → Presence w → Except Fault Unit × Presence w
  | ofBits bits, _ => (.ok (), ⟨bits⟩)
  | insert i, p => (.ok (), p.insert i)
  | encode sink, p => ((sink.put p).1, p)
  | decode source, p =>
    match (Decoder.field : Decoder _ (Presence w)).run source with
    | (.ok found, _) => (.ok (), found)
    | (.error fault, _) => (.error fault, p)

/-- There is no room to write a word, or there are too few bytes to read
one. -/
def Lacks : Command w → Prop
  | ofBits _ | insert _ => False
  | encode sink => sink.remaining < w.octets
  | decode source => source.remaining < w.octets

/-- **What becomes of a set of indices.** -/
def act : Command w → Finset Nat → Finset Nat
  | ofBits bits, _ => digits bits.toNat
  | insert i, indices => {i.val} ∪ indices
  | encode _, indices => indices
  | @decode _ order source, indices =>
    if source.remaining < w.octets then indices
    else digits (order.load ((source.bytes.drop source.pos).take w.octets))

end Command

/-- The word after a run, which begins with no index at all. -/
def run (commands : List (Command w)) : Presence w :=
  commands.foldl (fun p command => (command.perform p).2) empty

/-- The set after a run, which begins with none. -/
def indices (commands : List (Command w)) : Finset Nat :=
  commands.foldl (fun indices command => command.act indices) ∅

/-! ## One command -/

/-- A word is read as the number that its bytes denote. -/
theorem toNat_bits_decode (order : ByteOrder) (octets : Octets w.octets) :
    (Field.decode order octets : Presence w).bits.toNat = order.load octets.toList := by
  have hlt := order.load_lt octets.toList
  rw [octets.length_toList, ← w.two_pow_bits] at hlt
  change (BitVec.ofNat w.bits (order.load octets.toList)).toNat = _
  rw [BitVec.toNat_ofNat, Nat.mod_eq_of_lt hlt]

/-- Reading lacks bytes and changes nothing, or gives the word that stands
at the source. -/
theorem perform_decode (order : ByteOrder) (source : Source order) (p : Presence w) :
    source.remaining < w.octets ∧
      (Command.decode source).perform p = (.error .shortBuffer, p) ∨
    w.octets ≤ source.remaining ∧ ∃ found : Presence w,
      (Command.decode source).perform p = (.ok (), found) ∧
      found.bits.toNat = order.load ((source.bytes.drop source.pos).take w.octets) := by
  rw [Command.perform, Decoder.field, Decoder.run_take]
  rcases Nat.lt_or_ge source.remaining (Field.size (Presence w)) with hlt | hle
  · have hpeek := (source.peek_eq_error_iff _ .shortBuffer).2 ⟨rfl, hlt⟩
    rw [hpeek]
    exact .inl ⟨hlt, rfl⟩
  · obtain ⟨octets, hoctets, hpeek⟩ := source.exists_peek hle
    rw [hpeek]
    exact .inr ⟨hle, _, rfl, hoctets ▸ toNat_bits_decode order octets⟩

/-- **A command does to the set of a word what it says of sets.** -/
theorem members_perform (command : Command w) (p : Presence w) :
    (command.perform p).2.members = command.act p.members := by
  cases command with
  | ofBits bits => rfl
  | insert i => exact p.members_insert i.isLt
  | encode sink => rfl
  | @decode order source =>
    rcases perform_decode order source p with ⟨hlt, hperform⟩ | ⟨hle, found, hperform, hfound⟩
    · rw [hperform, Command.act, if_pos hlt]
    · rw [hperform, Command.act, if_neg (Nat.not_lt.2 hle), members, hfound]

/-- A command fails for want of room or bytes, and of nothing else. -/
theorem perform_eq_error_iff (command : Command w) (p : Presence w) (fault : Fault) :
    (command.perform p).1 = .error fault ↔ fault = .shortBuffer ∧ command.Lacks := by
  cases command with
  | ofBits bits => simp [Command.perform, Command.Lacks]
  | insert i => simp [Command.perform, Command.Lacks]
  | @encode order sink =>
    have hwrite := sink.write_eq_error_iff (Field.bytes order p) fault
    rwa [Field.length_bytes] at hwrite
  | @decode order source =>
    rcases perform_decode order source p with ⟨hlt, hperform⟩ | ⟨hle, found, hperform, -⟩
    · simp [hperform, Command.Lacks, hlt, eq_comm]
    · simp [hperform, Command.Lacks, hle]

/-- Then it changes nothing, and says so. -/
theorem perform_of_lacks {command : Command w} (h : command.Lacks) (p : Presence w)
    (S : Finset Nat) : (command.perform p).2 = p ∧ command.act S = S := by
  cases command with
  | ofBits bits | insert i => cases h
  | encode sink => exact ⟨rfl, rfl⟩
  | @decode order source =>
    rcases perform_decode order source p with ⟨hlt, hperform⟩ | ⟨hle, -⟩
    · exact ⟨by rw [hperform], if_pos hlt⟩
    · exact absurd h (Nat.not_lt.2 hle)

/-- **What was written is read back,** whatever the word was before. -/
theorem perform_decode_put {order : ByteOrder} {sink : Sink order}
    (h : (sink.put p).1 = .ok ()) (q : Presence w) :
    (Command.decode (⟨(sink.put p).2.buffer, sink.pos⟩ : Source order)).perform q =
      (.ok (), p) := by
  have hsize : (Field.bytes order p).length = w.octets := Field.length_bytes order p
  have hoctets : 0 < w.octets := by cases w <;> decide
  have hremaining : sink.remaining = sink.buffer.length - sink.pos := rfl
  have hput : sink.put p = sink.write (Field.bytes order p) := rfl
  rw [hput, Sink.write_eq] at h ⊢
  split at h
  · next hroom =>
    let source : Source order := ⟨(sink.overwrite (Field.bytes order p)).buffer, sink.pos⟩
    have hbuffer := Sink.drop_buffer_overwrite (s := sink) (Field.bytes order p) (by omega)
    have hrun := Decoder.run_of_reads (s := source) Decoder.frugal_field
      ((Decoder.reads_field _ p).2 rfl) hbuffer
    rw [if_pos hroom, Command.perform, hrun]
  · cases h

/-! ## Runs -/

/-- **After any run the word stands for the set** that the same commands
make. -/
theorem members_run (commands : List (Command w)) : (run commands).members = indices commands := by
  have hfold : ∀ p : Presence w,
      (commands.foldl (fun p command => (command.perform p).2) p).members =
        commands.foldl (fun indices command => command.act indices) p.members := by
    induction commands with
    | nil =>
      intro p
      rfl
    | cons command commands ih =>
      intro p
      rw [List.foldl_cons, ih, members_perform, List.foldl_cons]
  rw [run, hfold, members_empty, indices]

/-- Insertions add their indices. -/
theorem indices_inserted (commands : List (Command w)) (inserted : List (Fin w.bits)) :
    indices (commands ++ inserted.map .insert) =
      indices commands ∪ inserted.toFinset.image Fin.val := by
  induction inserted using List.reverseRecOn with
  | nil => simp
  | append_singleton inserted i ih =>
    have hlast : indices (commands ++ (inserted ++ [i]).map .insert) =
        {i.val} ∪ indices (commands ++ inserted.map .insert) := by
      rw [List.map_append, ← List.append_assoc, indices, List.foldl_append]
      rfl
    rw [hlast, ih]
    ext j
    simp

/-- **A presence set is a finite set of indices,** whatever is done to it.
After any run of commands from the empty set the word stands for the set
that the same commands make of no indices at all, and everything seen of
it is so of that set: each index asked for, the list of members, and which
masks refuse it. Two runs end at the same word where they make the same
set. A command fails for want of room or bytes and of nothing else, and
then neither the word nor the set changes. Insertions count as the set of
what they insert, in whatever order and however often; and a word that was
written is read back from where it was written in the same byte order,
over any word. It is all the same in a register wider than the word. -/
theorem run_represents (w : Width) (commands : List (Command w)) :
    let p := run commands
    let S := indices commands
    p.Represents S ∧ p.Widened ∧
    (∀ others : List (Command w), p = run others ↔ S = indices others) ∧
    (∀ (command : Command w) (fault : Fault),
      (command.perform p).1 = .error fault ↔ fault = .shortBuffer ∧ command.Lacks) ∧
    (∀ command : Command w, command.Lacks → (command.perform p).2 = p ∧ command.act S = S) ∧
    (∀ first second : List (Fin w.bits), first.toFinset = second.toFinset →
      run (commands ++ first.map .insert) = run (commands ++ second.map .insert)) ∧
    ∀ (order : ByteOrder) (sink : Sink order), (sink.put p).1 = .ok () → ∀ q : Presence w,
      (Command.decode (⟨(sink.put p).2.buffer, sink.pos⟩ : Source order)).perform q =
        (.ok (), p) := by
  intro p S
  have hmembers : p.members = S := members_run commands
  have hrun : ∀ others : List (Command w), p = run others ↔ S = indices others := by
    intro others
    rw [← members_inj, hmembers, members_run]
  refine ⟨hmembers ▸ p.represents_members, p.widened, hrun,
    fun command fault => perform_eq_error_iff command p fault,
    fun command hlacks => perform_of_lacks hlacks p S, fun first second hsame => ?_,
    fun order sink hput q => perform_decode_put hput q⟩
  rw [← members_inj, members_run, members_run, indices_inserted, indices_inserted, hsame]

/-- The highest index of eight bytes and the lowest, an attempt to write
them into seven, and the highest again. -/
def bothEnds : List (Command .w64) :=
  [.insert ⟨63, by decide⟩, .insert ⟨0, by decide⟩,
    .encode (Sink.ofBuffer (List.replicate 7 0) : Sink .big), .insert ⟨63, by decide⟩]

theorem run_represents_bothEnds :
    (run bothEnds).toWord = 0x8000000000000001 ∧
      63 ∈ indices bothEnds ∧ 64 ∉ indices bothEnds ∧
      ((Command.encode (Sink.ofBuffer (List.replicate 7 0) : Sink .big)).perform (run bothEnds)).2 =
        run bothEnds ∧
      run (bothEnds ++ [.insert ⟨5, by decide⟩, .insert ⟨6, by decide⟩]) =
        run (bothEnds ++ [.insert ⟨6, by decide⟩, .insert ⟨5, by decide⟩, .insert ⟨6, by decide⟩]) ∧
      (Command.decode (⟨[9, 0x80, 0, 0, 0, 0, 0, 0, 1], 1⟩ : Source .big)).perform empty =
        (.ok (), run bothEnds) := by
  obtain ⟨hrepresents, -, -, -, hlacks, hinserted, hput⟩ := run_represents .w64 bothEnds
  have hhigh : (run bothEnds).contains 63 = true := rfl
  have hbeyond : (run bothEnds).contains 64 = false := rfl
  refine ⟨rfl, (hrepresents.contains_iff 63).1 hhigh, fun hmem => ?_, (hlacks _ ?_).1,
    hinserted [⟨5, by decide⟩, ⟨6, by decide⟩] [⟨6, by decide⟩, ⟨5, by decide⟩, ⟨6, by decide⟩]
      (by decide), hput .big ⟨List.replicate 9 9, 1⟩ rfl empty⟩
  · rw [(hrepresents.contains_iff 64).2 hmem] at hbeyond
    cases hbeyond
  · exact (by decide : 7 < 8)

end Presence

end TradeWire
