/-!
# Numbers in digits

The number that a sequence of decimal digits writes. It is the same as reading the digits from left
to right, ten times what is before and the digit (`ofDigits_eq`), but neighbouring blocks of digits
are joined in pairs, so that long texts are read in few multiplications of large numbers.
-/

namespace Lisplet.Number

/-- The number that some digits write, and the power of ten that moves a number before them. -/
structure Block where
  value : Nat
  weight : Nat

namespace Block

def empty : Block := ⟨0, 1⟩

def ofDigit (c : Char) : Block := ⟨c.toNat - '0'.toNat, 10⟩

def append (a b : Block) : Block :=
  ⟨a.value * b.weight + b.value, a.weight * b.weight⟩

def concat (blocks : List Block) : Block :=
  blocks.foldl append empty

def joinPairs : List Block → List Block
  | a :: b :: rest => a.append b :: joinPairs rest
  | blocks => blocks

/-- Joins neighbours for a number of rounds, then all that are left. -/
def joinAll : Nat → List Block → Block
  | 0, blocks => concat blocks
  | rounds + 1, blocks => joinAll rounds (joinPairs blocks)

theorem append_assoc (a b c : Block) : (a.append b).append c = a.append (b.append c) := by
  simp only [append, Nat.add_mul, Nat.mul_assoc, Nat.add_assoc]

theorem foldl_append_joinPairs (blocks : List Block) (a : Block) :
    (joinPairs blocks).foldl append a = blocks.foldl append a := by
  fun_induction joinPairs blocks generalizing a with
  | case1 b c rest ih => rw [List.foldl_cons, ih, ← append_assoc]; rfl
  | case2 => rfl

/-- Joining in pairs changes nothing but the order of the work. -/
theorem joinAll_eq (rounds : Nat) (blocks : List Block) : joinAll rounds blocks = concat blocks := by
  induction rounds generalizing blocks with
  | zero => rfl
  | succ n ih => rw [joinAll, ih, concat, foldl_append_joinPairs, concat]

theorem value_foldl_append (cs : List Char) (a : Block) :
    ((cs.map ofDigit).foldl append a).value = Nat.ofDigitChars 10 cs a.value := by
  induction cs generalizing a with
  | nil => rfl
  | cons c cs ih =>
    rw [List.map_cons, List.foldl_cons, ih, Nat.ofDigitChars_cons, append, ofDigit, Nat.mul_comm]

end Block

/-- The number that digits write. As many rounds as the number of digits has binary places leave a
single block. -/
def ofDigits (cs : List Char) : Nat :=
  (Block.joinAll (cs.length.log2 + 1) (cs.map Block.ofDigit)).value

theorem ofDigits_eq (cs : List Char) : ofDigits cs = Nat.ofDigitChars 10 cs 0 := by
  rw [ofDigits, Block.joinAll_eq, Block.concat, Block.value_foldl_append]
  rfl

end Lisplet.Number
