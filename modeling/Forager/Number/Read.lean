import Forager.Number.Double

/-!
# Reading numbers

`real?` reads decimal and hexadecimal numerals with a point and an exponent, and the names of the values that are no
finite number. `integer?` reads integers of 64 bits. An underscore may separate digits where the notation says so.
-/

namespace Forager.Number

set_option autoImplicit false

inductive ReadError where
  | malformed
  | outOfRange
  deriving DecidableEq, Repr

def ReadError.message : ReadError → String
  | .malformed => "invalid syntax"
  | .outOfRange => "value out of range"

/-- The value of a digit in bases up to sixteen. -/
def digitValue? (c : Char) : Option Nat :=
  if c.isDigit then some (c.toNat - '0'.toNat)
  else if 'a' ≤ c ∧ c ≤ 'f' then some (c.toNat - 'a'.toNat + 10)
  else if 'A' ≤ c ∧ c ≤ 'F' then some (c.toNat - 'A'.toNat + 10)
  else none

def digitOf? (base : Nat) (c : Char) : Option Nat := (digitValue? c).filter (· < base)

def splitSign : List Char → Bool × List Char
  | '+' :: rest => (false, rest)
  | '-' :: rest => (true, rest)
  | cs => (false, cs)

/-- What stood before an underscore. -/
inductive Before where
  | start
  | digit
  | underscore
  | other
  deriving DecidableEq

/-- Whether every underscore stands between digits. -/
def separates (hex : Bool) : Before → List Char → Bool
  | before, [] => before ≠ .underscore
  | before, c :: rest =>
    if (digitOf? (if hex then 16 else 10) c).isSome then separates hex .digit rest
    else if c = '_' then before = .digit && separates hex .underscore rest
    else before ≠ .underscore && separates hex .other rest

/-- Whether the underscores of a numeral are well placed. A prefix of the base counts as a digit. -/
def underscoresFit (cs : List Char) : Bool :=
  match (splitSign cs).2 with
  | '0' :: b :: rest =>
    if b.toLower = 'x' then separates true .digit rest
    else if b.toLower = 'b' || b.toLower = 'o' then separates false .digit rest
    else separates false .start ('0' :: b :: rest)
  | cs => separates false .start cs

/-- Digits with at most one point: their value, how many stand after the point, and whether there are any. -/
structure Mantissa where
  value : Nat
  fraction : Nat
  pointed : Bool
  seen : Bool

/-- The longest sequence of digits, underscores and one point, and what follows it. -/
def Mantissa.scan (base : Nat) : Mantissa → List Char → Mantissa × List Char
  | m, [] => (m, [])
  | m, c :: rest =>
    if c = '_' then Mantissa.scan base m rest
    else if c = '.' then
      if m.pointed then (m, c :: rest) else Mantissa.scan base { m with pointed := true } rest
    else match digitOf? base c with
      | some d =>
        Mantissa.scan base
          ⟨m.value * base + d, if m.pointed then m.fraction + 1 else m.fraction, m.pointed, true⟩ rest
      | none => (m, c :: rest)

/-- The digits of an exponent. The value stops growing at ten thousand, far beyond every double. -/
def scanExponent : Nat → List Char → Option Nat
  | e, [] => some e
  | e, c :: rest =>
    if c = '_' then scanExponent e rest
    else match digitOf? 10 c with
      | some d => scanExponent (if e < 10000 then e * 10 + d else e) rest
      | none => none

def exponent? (cs : List Char) : Option Int :=
  let (negative, digits) := splitSign cs
  match digits with
  | c :: _ =>
    if c.isDigit then (scanExponent 0 digits).map fun e => if negative then -(e : Int) else e else none
  | [] => none

/-- The double nearest to `m * 10 ^ e`. -/
def ofDecimal (m : Nat) (e : Int) : Float :=
  let magnitude := (Nat.toDigits 10 m).length + e
  if m = 0 || magnitude < -400 then 0.0
  else if 400 < magnitude then infinity false
  else if 0 ≤ e then Float.ofScientific m false e.toNat
  else Float.ofScientific m true (-e).toNat

/-- The double nearest to `m * 2 ^ e`. -/
def ofBinary (m : Nat) (e : Int) : Float :=
  let magnitude := Nat.log2 m + e
  if m = 0 || magnitude < -1200 then 0.0
  else if 1200 < magnitude then infinity false
  else if 0 ≤ e then Float.ofScientific (m * Nat.pow 2 e.toNat) false 0
  else Float.ofScientific (m * Nat.pow 5 (-e).toNat) true (-e).toNat

/-- The value of an unsigned numeral, which may exceed every double. -/
def magnitude? (cs : List Char) : Option Float :=
  match cs with
  | '0' :: x :: rest =>
    if x.toLower = 'x' then
      match Mantissa.scan 16 ⟨0, 0, false, false⟩ rest with
      | (m, p :: e) =>
        if m.seen && p.toLower = 'p' then (exponent? e).map fun e => ofBinary m.value (e - 4 * m.fraction) else none
      | (_, []) => none
    else decimal? cs
  | _ => decimal? cs
where
  decimal? (cs : List Char) : Option Float :=
    match Mantissa.scan 10 ⟨0, 0, false, false⟩ cs with
    | (m, []) => if m.seen then some (ofDecimal m.value (-m.fraction)) else none
    | (m, p :: e) =>
      if m.seen && p.toLower = 'e' then (exponent? e).map fun e => ofDecimal m.value (e - m.fraction) else none

/-- The values that have names, in any case. -/
def named? (cs : List Char) : Option Float :=
  let (negative, name) := splitSign cs
  let name := String.ofList (name.map Char.toLower)
  if name = "inf" || name = "infinity" then some (infinity negative)
  else if cs.map Char.toLower = "nan".toList then some nan
  else none

/-- Reads a real number. A finite numeral that exceeds every double is out of range. -/
def real? (text : String) : Except ReadError Float :=
  let cs := text.toList
  match named? cs with
  | some x => .ok x
  | none =>
    let (negative, digits) := splitSign cs
    match magnitude? digits with
    | none => .error .malformed
    | some x =>
      if !underscoresFit cs then .error .malformed
      else if !isFinite x then .error .outOfRange
      else .ok (if negative then -x else x)

/-- How many values a word of 64 bits has. -/
def wordSize : Nat := 18446744073709551616

/-- The value of digits that follow the value `n`. Underscores are skipped if `separated`. The reading stops where the
value leaves 64 bits. -/
def scanNatural (base : Nat) (separated : Bool) : Nat → List Char → Except ReadError Nat
  | n, [] => .ok n
  | n, c :: rest =>
    if separated && c = '_' then scanNatural base separated n rest
    else match digitOf? base c with
      | some d =>
        let n := n * base + d
        if n < wordSize then scanNatural base separated n rest else .error .outOfRange
      | none => .error .malformed

/-- The value of a nonempty sequence of digits. -/
def natural? (base : Nat) (separated : Bool) (cs : List Char) : Except ReadError Nat :=
  if cs.isEmpty then .error .malformed else scanNatural base separated 0 cs

/-- The least and the greatest integer of 64 bits. -/
def leastInt : Int := -9223372036854775808

@[inherit_doc leastInt]
def greatestInt : Int := 9223372036854775807

def inRange (n : Int) : Except ReadError Int :=
  if leastInt ≤ n ∧ n ≤ greatestInt then .ok n else .error .outOfRange

def integer? (text : String) : Except ReadError Int := do
  let (negative, digits) := splitSign text.toList
  let n ← natural? 10 false digits
  inRange (if negative then -n else n)

/-- The base that an unsigned numeral announces, and its digits. -/
def splitBase : List Char → Nat × List Char
  | ['0'] => (10, ['0'])
  | '0' :: b :: rest =>
    if b.toLower = 'x' then (16, rest)
    else if b.toLower = 'b' then (2, rest)
    else if b.toLower = 'o' then (8, rest)
    else (8, b :: rest)
  | cs => (10, cs)

/-- Reads an integer whose base is announced by its first characters, with underscores between digits. -/
def literal? (text : String) : Except ReadError Int := do
  let (negative, unsigned) := splitSign text.toList
  let (base, digits) := splitBase unsigned
  let n ← natural? base true digits
  if underscoresFit text.toList then inRange (if negative then -n else n) else .error .malformed

end Forager.Number
