/-!
# Double precision numbers

A `Double` is a number of the binary64 format, held as sign, integer mantissa and exponent, so
that everything about it is exact arithmetic on integers. `nearest` rounds a fraction of naturals
to the format; reading a decimal, converting an integer and the four operations all compute their
exact result first and round it once.

A finite double in normal form has a mantissa below `2 * leastFull`, an exponent between
`minExponent` and `maxExponent`, and a mantissa of at least `leastFull` unless the exponent is the
least one. There is one NaN. Powers of two are written as shifts.
-/

namespace Lisplet

/-- A binary64 number; the finite ones are worth `±mantissa * 2 ^ exponent`. -/
inductive Double where
  | nan
  | infinite (negative : Bool)
  | finite (negative : Bool) (mantissa : Nat) (exponent : Int)
  deriving DecidableEq, Inhabited

namespace Double

/-- The exponent of the numbers next to zero. -/
def minExponent : Int := -1074

/-- The exponent of the largest finite numbers. -/
def maxExponent : Int := 971

/-- The least mantissa of full length, `2 ^ 52`. -/
def leastFull : Nat := 0x10000000000000

def zero (negative : Bool) : Double :=
  .finite negative 0 minExponent

/-! ## Rounding -/

/-- The fraction `num / den / 2 ^ e`, as numerator and denominator. -/
def scaleDown (num den : Nat) (e : Int) : Nat × Nat :=
  if 0 ≤ e then (num, den <<< e.toNat) else (num <<< (-e).toNat, den)

/-- The integer nearest to `num / den`, the even one of two equally near. -/
def roundHalfEven (num den : Nat) : Nat :=
  let q := num / den
  let r := num % den
  if 2 * r < den ∨ (2 * r = den ∧ q % 2 = 0) then q else q + 1

/-- The finite number with this mantissa and exponent, or an infinity when it is too large. A
mantissa that rounding has carried beyond full length moves one step up. -/
def pack (negative : Bool) (mantissa : Nat) (exponent : Int) : Double :=
  let (m, e) := if mantissa = 2 * leastFull then (leastFull, exponent + 1) else (mantissa, exponent)
  if e > maxExponent then .infinite negative else .finite negative m e

/-- The double nearest to `± num / den`, for a denominator that is not zero. -/
def nearest (negative : Bool) (num den : Nat) : Double :=
  if num = 0 then
    zero negative
  else
    let low : Int := max minExponent ((num.log2 : Int) - (den.log2 : Int) - 53)
    let (n, d) := scaleDown num den low
    let e := if n / d < 2 * leastFull then low else low + 1
    let (n, d) := scaleDown num den e
    pack negative (roundHalfEven n d) e

/-- The double nearest to `z * 2 ^ e`; `zeroSign` is the sign of an exact zero. -/
def ofScaled (zeroSign : Bool) (z : Int) (e : Int) : Double :=
  if z = 0 then
    zero zeroSign
  else if 0 ≤ e then
    nearest (decide (z < 0)) (z.natAbs <<< e.toNat) 1
  else
    nearest (decide (z < 0)) z.natAbs (1 <<< (-e).toNat)

def ofInt (n : Int) : Double :=
  ofScaled false n 0

/-! ## Predicates and parts -/

def isZero : Double → Bool
  | .finite _ m _ => m == 0
  | _ => false

def signed (negative : Bool) (mantissa : Nat) : Int :=
  if negative then -(mantissa : Int) else mantissa

/-! ## Arithmetic -/

protected def neg : Double → Double
  | .nan => .nan
  | .infinite s => .infinite !s
  | .finite s m e => .finite (!s) m e

/-- The sum; opposite infinities have none. -/
protected def add : Double → Double → Double
  | .nan, _ => .nan
  | _, .nan => .nan
  | .infinite s, .infinite t => if s = t then .infinite s else .nan
  | .infinite s, .finite .. => .infinite s
  | .finite .., .infinite t => .infinite t
  | .finite s m e, .finite t n f =>
    let g := min e f
    let z := signed s (m <<< (e - g).toNat) + signed t (n <<< (f - g).toNat)
    ofScaled (s && t) z g

protected def sub (x y : Double) : Double :=
  x.add y.neg

/-- The product; zero times infinity is none. -/
protected def mul : Double → Double → Double
  | .nan, _ => .nan
  | _, .nan => .nan
  | .infinite s, .infinite t => .infinite (s != t)
  | .infinite s, .finite t n _ => if n = 0 then .nan else .infinite (s != t)
  | .finite s m _, .infinite t => if m = 0 then .nan else .infinite (s != t)
  | .finite s m e, .finite t n f => ofScaled (s != t) (signed (s != t) (m * n)) (e + f)

/-- The quotient; a zero divisor gives an infinity, and `0 / 0` and `∞ / ∞` are none. -/
protected def div : Double → Double → Double
  | .nan, _ => .nan
  | _, .nan => .nan
  | .infinite _, .infinite _ => .nan
  | .infinite s, .finite t _ _ => .infinite (s != t)
  | .finite s _ _, .infinite t => zero (s != t)
  | .finite s m e, .finite t n f =>
    if n = 0 then
      if m = 0 then .nan else .infinite (s != t)
    else if 0 ≤ e - f then
      nearest (s != t) (m <<< (e - f).toNat) n
    else
      nearest (s != t) m (n <<< (f - e).toNat)

/-! ## Order -/

/-- The numerical order, in which the two zeros are equal and a NaN has no place. -/
def compare? : Double → Double → Option Ordering
  | .nan, _ => none
  | _, .nan => none
  | .infinite s, .infinite t => some (if s = t then .eq else if s then .lt else .gt)
  | .infinite s, .finite .. => some (if s then .lt else .gt)
  | .finite .., .infinite t => some (if t then .gt else .lt)
  | .finite s m e, .finite t n f =>
    let g := min e f
    some (compare (signed s (m <<< (e - g).toNat)) (signed t (n <<< (f - g).toNat)))

/-- Numerical equality: a NaN differs from everything, the two zeros are equal. -/
def same (x y : Double) : Bool :=
  x.compare? y == some .eq

/-! ## Conversions -/

/-- The integer part of a finite number, the fraction dropped toward zero. -/
def truncate : Double → Option Int
  | .finite s m e =>
    some (signed s (if 0 ≤ e then m <<< e.toNat else m >>> (-e).toNat))
  | _ => none

def signBit (negative : Bool) : Nat :=
  if negative then 0x8000000000000000 else 0

def bits : Double → Nat
  | .nan => 0x7FF8000000000000
  | .infinite s => signBit s + 0x7FF0000000000000
  | .finite s m e =>
    signBit s +
      (if m < leastFull then m else (e - minExponent + 1).toNat * leastFull + (m - leastFull))

end Double

end Lisplet
