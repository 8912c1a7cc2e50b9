/-!
# Ranges of code points

Properties of characters are given as closed ranges of code points.
-/

namespace Lisplet.Text

def inRanges (ranges : List (Nat × Nat)) (c : Char) : Bool :=
  ranges.any fun (first, last) => first ≤ c.toNat && c.toNat ≤ last

end Lisplet.Text
