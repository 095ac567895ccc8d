import Forager.Number.Decimal

/-!
# Number texts

The texts of a double: `compact` for messages and programs, `plain` for tables and logs, `json?` for records, and
`fixed` for a given number of places. The first three write the shortest digits that read back as the same double.
-/

namespace Forager.Number

set_option autoImplicit false

/-- The digits with the point where it stands, zeros filling the gap. -/
def Decimal.positional (d : Decimal) : List Char :=
  if d.digits.isEmpty then ['0']
  else if d.point ≤ 0 then '0' :: '.' :: (List.replicate (-d.point).toNat '0' ++ d.digits)
  else
    let n := d.point.toNat
    if d.digits.length ≤ n then d.digits ++ List.replicate (n - d.digits.length) '0'
    else d.digits.take n ++ '.' :: d.digits.drop n

/-- How many digits an exponent has at least. -/
structure ExponentWidth where
  negative : Nat
  positive : Nat

def exponentText (w : ExponentWidth) (e : Int) : List Char :=
  let digits := Nat.toDigits 10 e.natAbs
  let least := if e < 0 then w.negative else w.positive
  (if e < 0 then '-' else '+') :: (List.replicate (least - digits.length) '0' ++ digits)

/-- One digit before the point and the power of ten after the rest. -/
def Decimal.scientific (w : ExponentWidth) (d : Decimal) : List Char :=
  match d.digits with
  | [] => ['0', 'e'] ++ exponentText w 0
  | [c] => [c, 'e'] ++ exponentText w (d.point - 1)
  | c :: rest => c :: '.' :: rest ++ 'e' :: exponentText w (d.point - 1)

/-- Where positional notation ends and how exponents are written. -/
structure Layout where
  /-- Powers of ten of the first digit that are written positionally. -/
  positional : Int → Bool
  exponent : ExponentWidth

/-- The digits in the notation that the layout chooses. -/
def Layout.write (l : Layout) (d : Decimal) : List Char :=
  if d.digits.isEmpty || l.positional (d.point - 1) then d.positional else d.scientific l.exponent

/-- The text of a double. Not a number and the infinities have texts of their own. -/
def Layout.text (l : Layout) (x : Float) : String :=
  match shape x with
  | .nan => "NaN"
  | .infinite true => "-Inf"
  | .infinite false => "+Inf"
  | .finite negative m q =>
    let body := l.write (.shortest m q)
    String.ofList (if negative then '-' :: body else body)

/-- Positional from 0.0001 up to 999999, exponents of two digits at least. -/
def Layout.compact : Layout := ⟨fun x => -4 ≤ x && x < 6, ⟨2, 2⟩⟩

/-- Positional throughout. -/
def Layout.plain : Layout := ⟨fun _ => true, ⟨2, 2⟩⟩

/-- Positional from 0.000001 up to below 10 ^ 21, negative exponents without a leading zero. -/
def Layout.json : Layout := ⟨fun x => -6 ≤ x && x < 21, ⟨1, 2⟩⟩

def compact (x : Float) : String := Layout.compact.text x

/-- The text of a double in tables and logs. -/
def plain (x : Float) : String := Layout.plain.text x

/-- The text of a finite double in records. -/
def json? (x : Float) : Option String := if isFinite x then some (Layout.json.text x) else none

/-- The text of a double with `places` digits after the point. A half is rounded to the even neighbour. -/
def fixed (places : Nat) (x : Float) : String :=
  match shape x with
  | .finite negative m q =>
    let r := (Ratio.scale m q).shift places
    let digits := Nat.toDigits 10 (roundDiv r.num r.den)
    let digits := List.replicate (places + 1 - digits.length) '0' ++ digits
    let whole := digits.length - places
    let fraction := if places = 0 then [] else '.' :: digits.drop whole
    let body := digits.take whole ++ fraction
    String.ofList (if negative then '-' :: body else body)
  | _ => compact x

end Forager.Number
