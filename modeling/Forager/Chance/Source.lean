import Forager.Chance.Warmup

/-!
# Sources of random bits

A source yields one number of 63 bits after the other. The lagged generator keeps 607 words and adds two of them at
each step; a script repeats a fixed sequence. The computations that draw from a source are in `StateM Source`, and
`bits`, `unit` and `below` are the ways to draw.
-/

namespace Forager.Chance

set_option autoImplicit false

def lag : Nat := 607

/-- A generator that adds two of its words, `tap` and `feed`, at each step. -/
structure Lagged where
  words : Array UInt64
  tap : Nat
  feed : Nat

namespace Lagged

/-- The modulus of the multiplicative generator that spreads a seed. -/
def modulus : Nat := 2147483647

/-- One step of the multiplicative generator. -/
def spread (x : Nat) : Nat := 48271 * x % modulus

/-- The seed as a state of the multiplicative generator, which is never zero. -/
def reduce (seed : Int64) : Nat :=
  let r := (seed.toInt % (modulus : Int)).toNat
  if r = 0 then 89482311 else r

/-- Words made of three steps each of the multiplicative generator, mixed with the warmed-up words. -/
def fill : List UInt64 → Nat → Array UInt64 → Array UInt64
  | [], _, words => words
  | w :: rest, x, words =>
    let a := spread x
    let b := spread a
    let c := spread b
    fill rest c (words.push (((a.toUInt64 <<< 40) ^^^ (b.toUInt64 <<< 20) ^^^ c.toUInt64) ^^^ w))

def ofSeed (seed : Int64) : Lagged :=
  { words := fill warmup.toList (Nat.repeat spread 20 (reduce seed)) (Array.mkEmpty lag)
    tap := 0
    feed := 334 }

def next (g : Lagged) : UInt64 × Lagged :=
  let tap := (g.tap + lag - 1) % lag
  let feed := (g.feed + lag - 1) % lag
  let x := g.words.getD feed 0 + g.words.getD tap 0
  (x, ⟨g.words.setIfInBounds feed x, tap, feed⟩)

end Lagged

inductive Source where
  | lagged (g : Lagged)
  /-- The numbers in order from `next` on, starting over at the end. -/
  | script (numbers : Array UInt64) (next : Nat)

def Source.ofSeed (seed : Int64) : Source := .lagged (.ofSeed seed)

def mask : UInt64 := 0x7FFFFFFFFFFFFFFF

abbrev Draw (α : Type) := StateM Source α

def bits : Draw UInt64 := fun s =>
  match s with
  | .lagged g =>
    let (x, g) := g.next
    (x &&& mask, .lagged g)
  | .script numbers next =>
    (numbers.getD next 0 &&& mask, .script numbers (if next + 1 < numbers.size then next + 1 else 0))

/-- How many unsuitable numbers in a row are passed over. No source of practical use yields that many. -/
def patience : Nat := 100000

/-- A fraction below one, drawn again while rounding makes it one. -/
def unitWithin : Nat → Draw Float
  | 0 => pure 0
  | fuel + 1 => do
    let x := (← bits).toFloat / 9223372036854775808.0
    if x == 1.0 then unitWithin fuel else return x

/-- A fraction from zero to below one. -/
def unit : Draw Float := unitWithin patience

/-- A number of `width` bits below the largest multiple of `n`, as a remainder by `n`. -/
def belowWithin (width n : Nat) : Nat → Draw Nat
  | 0 => pure 0
  | fuel + 1 => do
    let x := (← bits).toNat / Nat.pow 2 (63 - width)
    if x < Nat.pow 2 width - Nat.pow 2 width % n then return x % n else belowWithin width n fuel

/-- A number below `n`, all of them equally likely. -/
def below (n : Nat) : Draw Nat := belowWithin (if n < 2147483648 then 31 else 63) n patience

/-- A member of a nonempty list, or the given one of an empty list. -/
def choose {α : Type} (default : α) (xs : List α) : Draw α := do
  return xs.getD (← below xs.length) default

end Forager.Chance
