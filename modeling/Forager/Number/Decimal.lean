import Forager.Number.Double

/-!
# Decimal digits of doubles

A double stands for every real number that is closer to it than to any other double, and for the two ends of that
interval if its mantissa is even. `Decimal.shortest` is the decimal with the fewest digits in the interval, the one
nearest to the double if there are two, and the one with an even last digit if both are equally near. It is found by
trying one digit, two digits, and so on: on each decimal grid only the two neighbours of the double matter. The
arithmetic is exact.
-/

namespace Forager.Number

set_option autoImplicit false

/-- Digits and where the point stands: `digits` after the point, times ten to the power `point`. -/
structure Decimal where
  digits : List Char
  point : Int
  deriving DecidableEq, Repr

/-- A positive ratio of naturals. -/
structure Ratio where
  num : Nat
  den : Nat

/-- `n` times two to the power `e`. -/
def Ratio.scale (n : Nat) (e : Int) : Ratio :=
  if 0 ≤ e then ⟨n * Nat.pow 2 e.toNat, 1⟩ else ⟨n, Nat.pow 2 (-e).toNat⟩

/-- The ratio times ten to the power `e`. -/
def Ratio.shift (r : Ratio) (e : Int) : Ratio :=
  if 0 ≤ e then ⟨r.num * Nat.pow 10 e.toNat, r.den⟩ else ⟨r.num, r.den * Nat.pow 10 (-e).toNat⟩

/-- How many times the ratio may be multiplied by ten and stay below one, up to `fuel`. -/
def Ratio.zeros : (fuel num den : Nat) → Nat
  | 0, _, _ => 0
  | fuel + 1, num, den => if num * 10 < den then Ratio.zeros fuel (num * 10) den + 1 else 0

/-- The number of decimal digits of a natural number, none for zero. -/
def digitCount (n : Nat) : Nat := if n = 0 then 0 else (Nat.toDigits 10 n).length

/-- The least power of ten above the ratio. -/
def Ratio.magnitude (r : Ratio) : Int :=
  if r.den ≤ r.num then digitCount (r.num / r.den) else -(Ratio.zeros 400 r.num r.den : Int)

/-- The interval of reals that a double stands for, as a value and two ends over one denominator. -/
structure Interval where
  low : Nat
  value : Nat
  high : Nat
  den : Nat
  closed : Bool

/-- The interval of the double `m * 2 ^ q`. Below a power of two the next double is half as far as above it. -/
def Interval.ofDouble (m : Nat) (q : Int) : Interval :=
  let near := m = hiddenBit && q ≠ leastExponent
  let unit := Ratio.scale 1 (q - 2)
  { low := (4 * m - if near then 1 else 2) * unit.num
    value := 4 * m * unit.num
    high := (4 * m + 2) * unit.num
    den := unit.den
    closed := m % 2 = 0 }

/-- Whether `c / den` lies in the interval, whose members are over `den` as well after scaling by `k`. -/
def Interval.holds (i : Interval) (k : Nat) (scaled : Nat) : Bool :=
  if i.closed then i.low * k ≤ scaled && scaled ≤ i.high * k else i.low * k < scaled && scaled < i.high * k

/-- The grid point of `count` digits that stands for the double, if one does. `magnitude` is the least power of ten
above the double. -/
def Interval.pick? (i : Interval) (magnitude : Int) (count : Nat) : Option Nat :=
  let up := (count - magnitude).toNat
  let den := i.den * Nat.pow 10 (magnitude - count).toNat
  let num := i.value * Nat.pow 10 up
  let below := num / den
  let rest := num % den
  let downFits := i.holds (Nat.pow 10 up) (below * den)
  let upFits := i.holds (Nat.pow 10 up) ((below + 1) * den)
  if downFits && upFits then
    if 2 * rest < den then some below
    else if den < 2 * rest then some (below + 1)
    else if below % 2 = 0 then some below else some (below + 1)
  else if downFits then some below
  else if upFits then some (below + 1)
  else none

/-- Tries the grids of `count` digits and more, at most `fuel` of them. -/
def Interval.search (i : Interval) (magnitude : Int) : (fuel count : Nat) → Nat × Nat
  | 0, count => (i.value / i.den, count)
  | fuel + 1, count =>
    match i.pick? magnitude count with
    | some n => (n, count)
    | none => Interval.search i magnitude fuel (count + 1)

def trimZeros (digits : List Char) : List Char := (digits.reverse.dropWhile (· == '0')).reverse

/-- The decimal `n * 10 ^ (magnitude - count)`. -/
def Decimal.ofGrid (n : Nat) (magnitude : Int) (count : Nat) : Decimal :=
  let digits := Nat.toDigits 10 n
  { digits := trimZeros digits, point := magnitude + digits.length - count }

/-- The shortest decimal that stands for the double `m * 2 ^ q`. No digits stand for zero. -/
def Decimal.shortest (m : Nat) (q : Int) : Decimal :=
  if m = 0 then ⟨[], 0⟩
  else
    let i := Interval.ofDouble m q
    let magnitude := Ratio.magnitude ⟨i.value, i.den⟩
    let (n, count) := i.search magnitude 17 1
    .ofGrid n magnitude count

/-- The quotient rounded to the nearest integer, a half to the even one. -/
def roundDiv (num den : Nat) : Nat :=
  let below := num / den
  let rest := num % den
  if 2 * rest < den then below
  else if den < 2 * rest then below + 1
  else below + below % 2

end Forager.Number
