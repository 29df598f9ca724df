set_option autoImplicit false

/-!
Sets of characters as closed ranges of their numbers, first and last of each.
-/

namespace LiveMarkup.Text

def inRanges (ranges : List (Nat × Nat)) (c : Char) : Bool :=
  ranges.any fun (first, last) => first ≤ c.toNat && c.toNat ≤ last

/-- Whether no range is empty, and each lies behind the one before it with a gap between them. -/
def areApart : List (Nat × Nat) → Bool
  | [] => true
  | [(first, last)] => first ≤ last
  | (first, last) :: (next, stop) :: rest =>
    first ≤ last && last + 1 < next && areApart ((next, stop) :: rest)

end LiveMarkup.Text
