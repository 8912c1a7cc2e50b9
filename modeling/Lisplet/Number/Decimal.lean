import Lisplet.Number.Digits
import Lisplet.Number.Double

/-!
# Decimal text of doubles

Reading takes a decimal to the double nearest to it. Writing takes the fewest digits that read
back as the same double, among those the decimal nearest to it, and of two equally near ones the
larger; it never uses an exponent, and marks a whole number by a trailing `.0`.

Both directions work on naturals only: a double is a fraction, a decimal is a fraction, and they
are compared by cross multiplication.
-/

namespace Lisplet

/-- The decimal number `± digits * 10 ^ exponent`. -/
structure Decimal where
  negative : Bool
  digits : Nat
  exponent : Int
  deriving DecidableEq

namespace Decimal

def powerOfTen (n : Nat) : Nat :=
  Nat.pow 10 n

/-- The double nearest to a decimal. A decimal of at least `10 ^ 400` or below `10 ^ (-399)` is
decided by its size alone, so that no power is computed for it. -/
def toDouble (d : Decimal) : Double :=
  if d.digits = 0 then
    .zero d.negative
  else if d.exponent > 400 then
    .infinite d.negative
  else if d.exponent < -((d.digits.log2 : Int) + 400) then
    .zero d.negative
  else if 0 ≤ d.exponent then
    .nearest d.negative (d.digits * powerOfTen d.exponent.toNat) 1
  else
    .nearest d.negative d.digits (powerOfTen (-d.exponent).toNat)

end Decimal

namespace Double

/-! ## Reading -/

/-- The decimal with the digits `whole` before the point and `fraction` after it, scaled by a power
of ten. -/
def ofDigits (negative : Bool) (whole fraction : List Char) (exponent : Int) : Double :=
  Decimal.toDouble
    { negative
      digits := Number.ofDigits (whole ++ fraction)
      exponent := exponent - fraction.length }

/-- The size of an exponent. Once it has reached `0x10000` no further digit counts, which is far
beyond the exponents of doubles. -/
def exponentSize (ds : List Char) : Nat :=
  ds.foldl (fun n c => if n < 0x10000 then 10 * n + (c.toNat - '0'.toNat) else n) 0

/-- The exponent written by `cs`: nothing at all, or `e`, an optional sign and some digits. -/
def exponentOf? (cs : List Char) : Option Int :=
  let unsigned (sign : Int) (ds : List Char) : Option Int :=
    if !ds.isEmpty && ds.all Char.isDigit then some (sign * exponentSize ds) else none
  match cs with
  | [] => some 0
  | e :: rest =>
    if e = 'e' ∨ e = 'E' then
      match rest with
      | '+' :: ds => unsigned 1 ds
      | '-' :: ds => unsigned (-1) ds
      | ds => unsigned 1 ds
    else
      none

/-- The double written by an unsigned text: digits with an optional point and exponent, at least
one digit among them, or a name of infinity or of NaN in letters of any case. -/
def unsignedOfText? (negative : Bool) (cs : List Char) : Option Double :=
  let name := cs.map Char.toLower
  if name = "inf".toList ∨ name = "infinity".toList then
    some (.infinite negative)
  else if name = "nan".toList then
    some .nan
  else
    let whole := cs.takeWhile Char.isDigit
    let rest := cs.dropWhile Char.isDigit
    let (fraction, rest) : List Char × List Char :=
      match rest with
      | '.' :: r => (r.takeWhile Char.isDigit, r.dropWhile Char.isDigit)
      | r => ([], r)
    if whole.isEmpty && fraction.isEmpty then none
    else (exponentOf? rest).map (ofDigits negative whole fraction)

def ofText? : List Char → Option Double
  | '+' :: cs => unsignedOfText? false cs
  | '-' :: cs => unsignedOfText? true cs
  | cs => unsignedOfText? false cs

/-! ## Writing -/

/-- Whether `a / b ≤ c / d` (or `<`, when the ends do not count). -/
def below (inclusive : Bool) (a b c d : Nat) : Bool :=
  if inclusive then a * d ≤ c * b else a * d < c * b

def decimalFraction (n : Nat) (p : Int) : Nat × Nat :=
  if 0 ≤ p then (n * Decimal.powerOfTen p.toNat, 1) else (n, Decimal.powerOfTen (-p).toNat)

/-- The reals that round to one double, as fractions over one denominator: the double itself and
the two ends, which belong to the interval when the mantissa is even. -/
structure Interval where
  low : Nat
  value : Nat
  high : Nat
  den : Nat
  inclusive : Bool

/-- The rounding interval of `mantissa * 2 ^ exponent`, counted in quarters of the last place. Below
a power of two the next double is only half as far away. -/
def interval (mantissa : Nat) (exponent : Int) : Interval :=
  let quarter := exponent - 2
  let factor := if 0 ≤ quarter then 1 <<< quarter.toNat else 1
  { low := (4 * mantissa - if mantissa = leastFull then 1 else 2) * factor
    value := 4 * mantissa * factor
    high := (4 * mantissa + 2) * factor
    den := if 0 ≤ quarter then 1 else 1 <<< (-quarter).toNat
    inclusive := mantissa % 2 == 0 }

/-- The decimal on the grid of multiples of `10 ^ u` that stands for the interval: of the two
neighbours of the value those inside the interval, of both the nearer, of a tie the upper. -/
def Interval.candidate (i : Interval) (u : Int) : Option Nat :=
  let (g, h) := decimalFraction 1 u
  let t := i.value * h / (i.den * g)
  let inside (c : Nat) : Bool :=
    below i.inclusive i.low i.den (c * g) h && below i.inclusive (c * g) h i.high i.den
  match inside t, inside (t + 1) with
  | true, true => some (if (2 * t + 1) * g * i.den ≤ 2 * i.value * h then t + 1 else t)
  | true, false => some t
  | false, true => some (t + 1)
  | false, false => none

/-- The `p` with `10 ^ p ≤ num / den < 10 ^ (p + 1)`, found among the three powers that the sizes of
`num` and `den` in binary leave open. -/
def leadingPower (num den : Nat) : Int :=
  let guess := (((num.log2 : Int) - (den.log2 : Int)) * 30103).fdiv 100000
  let reaches (p : Int) : Bool :=
    let (g, h) := decimalFraction 1 p
    below true g h num den
  if reaches (guess + 1) then guess + 1 else if reaches guess then guess else guess - 1

/-- The shortest decimal `c * 10 ^ u` in the rounding interval of a finite number other than zero:
the first of the grids of 1, 2, ... 17 significant digits that has one. -/
def shortest (mantissa : Nat) (exponent : Int) : Nat × Int :=
  let i := interval mantissa exponent
  let p := leadingPower i.value i.den
  let hit := (List.range 17).findSome? fun (n : Nat) =>
    (i.candidate (p - n)).map fun c => (c, p - (n : Int))
  match hit with
  | some (c, u) => if c % 10 = 0 then (c / 10, u + 1) else (c, u)
  | none => (0, 0)

/-- The digits of `c * 10 ^ u` laid out around the point, with `.0` after a whole number. -/
def positional (c : Nat) (u : Int) : List Char :=
  let ds := Nat.toDigits 10 c
  let point := (ds.length : Int) + u
  if 0 ≤ u then
    ds ++ List.replicate u.toNat '0' ++ ['.', '0']
  else if 0 < point then
    ds.take point.toNat ++ '.' :: ds.drop point.toNat
  else
    '0' :: '.' :: List.replicate (-point).toNat '0' ++ ds

def text : Double → String
  | .nan => "NaN"
  | .infinite s => if s then "-inf" else "inf"
  | .finite s m e =>
    let magnitude := if m = 0 then ['0', '.', '0'] else positional (shortest m e).1 (shortest m e).2
    String.ofList (if s then '-' :: magnitude else magnitude)

end Double

end Lisplet
