import TradeWire.Octets
/-!
# Slices — bytes by where they stand

A layout is written and read in order, and its parts are asked for by
position. One fact about fields in a row leads from the one to the other:
each stands behind the widths of those before it (`slice_flatten`).
-/

namespace TradeWire

-- Sums start from the zero of `Nat` itself, whatever algebra is in scope.
attribute [local instance (high)] Zero.ofOfNat0

/-- So many bytes from an offset on. -/
def slice (bytes : Bytes) (offset width : Nat) : Bytes := (bytes.drop offset).take width

/-- **Fields in a row:** each is the slice behind the widths of those
before it, whatever follows the last. -/
theorem slice_flatten {fields : List Bytes} {widths : List Nat}
    (h : fields.map List.length = widths) (rest : Bytes) (i : Nat) :
    slice (fields.flatten ++ rest) (widths.take i).sum (widths.getD i 0) = fields.getD i [] := by
  induction fields generalizing widths i with
  | nil =>
    obtain rfl : widths = [] := h.symm
    rfl
  | cons field fields ih =>
    obtain ⟨width, widths, rfl, hwidth, hwidths⟩ :
        ∃ width tail, widths = width :: tail ∧ field.length = width ∧
          fields.map List.length = tail := ⟨_, _, h.symm, rfl, rfl⟩
    rw [List.flatten_cons, List.append_assoc]
    cases i with
    | zero =>
      rw [slice, List.take_zero, List.sum_nil, List.drop_zero]
      exact List.take_left' hwidth
    | succ i =>
      have hdrop : (field ++ (fields.flatten ++ rest)).drop (width + (widths.take i).sum) =
          (fields.flatten ++ rest).drop (widths.take i).sum := by
        rw [← hwidth, List.drop_length_add_append]
      rw [slice, List.take_succ_cons, List.sum_cons, hdrop]
      exact ih hwidths i

/-- Positions behind a first part are those of the rest, moved by its
length. -/
theorem slice_append (before rest : Bytes) (offset width : Nat) :
    slice (before ++ rest) (before.length + offset) width = slice rest offset width := by
  rw [slice, List.drop_length_add_append]
  rfl

end TradeWire
