import Lisplet.Number.Digits

/-!
# Integers of 64 bits

Integers are machine words, but arithmetic on them is arithmetic of the mathematical integers: an
operation computes the exact result and gives it back only when it fits.
-/

namespace Lisplet.Integer

def least : Int := -0x8000000000000000

def greatest : Int := 0x7FFFFFFFFFFFFFFF

/-- The mathematical integer `n` as a word, when it fits. -/
def ofInt? (n : Int) : Option Int64 :=
  if least ≤ n ∧ n ≤ greatest then some (Int64.ofInt n) else none

def clamp (n : Int) : Int64 :=
  Int64.ofInt (max least (min n greatest))

def add? (a b : Int64) : Option Int64 :=
  ofInt? (a.toInt + b.toInt)

def sub? (a b : Int64) : Option Int64 :=
  ofInt? (a.toInt - b.toInt)

def mul? (a b : Int64) : Option Int64 :=
  ofInt? (a.toInt * b.toInt)

/-- The quotient truncated toward zero, when there is one and it fits. -/
def div? (a b : Int64) : Option Int64 :=
  if b = 0 then none else ofInt? (a.toInt.tdiv b.toInt)

/-- The remainder of truncating division, when that division has a quotient that fits. -/
def rem? (a b : Int64) : Option Int64 :=
  (div? a b).map fun _ => Int64.ofInt (a.toInt.tmod b.toInt)

/-! ## Text -/

def digits (n : Int) : List Char :=
  if n < 0 then '-' :: Nat.toDigits 10 n.natAbs else Nat.toDigits 10 n.natAbs

def text (n : Int64) : String :=
  String.ofList (digits n.toInt)

/-- The natural number written by one or more digits. -/
def natOfText? (cs : List Char) : Option Nat :=
  if !cs.isEmpty && cs.all Char.isDigit then some (Number.ofDigits cs) else none

/-- The word written by an optional sign and one or more digits, when it fits. -/
def ofText? : List Char → Option Int64
  | '+' :: cs => (natOfText? cs).bind fun n => ofInt? n
  | '-' :: cs => (natOfText? cs).bind fun n => ofInt? (-(n : Int))
  | cs => (natOfText? cs).bind fun n => ofInt? n

/-! ## Exactness -/

theorem toInt_of_ofInt? {n : Int} {w : Int64} (h : ofInt? n = some w) : w.toInt = n := by
  unfold ofInt? at h
  split at h
  · rename_i hr
    rw [← Option.some.inj h]
    exact Int64.toInt_ofInt_of_le hr.1 (Int.lt_add_one_of_le hr.2)
  · cases h

theorem ofInt?_toInt (w : Int64) : ofInt? w.toInt = some w := by
  have h : least ≤ w.toInt ∧ w.toInt ≤ greatest :=
    ⟨Int64.le_toInt w, Int.le_of_lt_add_one (Int64.toInt_lt w)⟩
  simp only [ofInt?, h, and_self, if_true, Int64.ofInt_toInt]

end Lisplet.Integer
