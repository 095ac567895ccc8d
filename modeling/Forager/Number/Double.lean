/-!
# Doubles taken apart

A double is not a number, an infinity, or an integer times a power of two with a sign.
-/

namespace Forager.Number

set_option autoImplicit false

inductive Shape where
  | nan
  | infinite (negative : Bool)
  /-- The value `mantissa * 2 ^ exponent`, negated if `negative`. Zero keeps its sign. -/
  | finite (negative : Bool) (mantissa : Nat) (exponent : Int)
  deriving DecidableEq, Repr

/-- The least exponent of a double, that of the subnormal numbers. -/
def leastExponent : Int := -1074

/-- The mantissa of every normal double has its top bit here. -/
def hiddenBit : Nat := 4503599627370496

/-- The shape of the double with these 64 bits. -/
def Shape.ofBits (bits : UInt64) : Shape :=
  let negative := bits >>> 63 == 1
  let biased := ((bits >>> 52) &&& 0x7FF).toNat
  let fraction := (bits &&& 0xFFFFFFFFFFFFF).toNat
  if biased = 0x7FF then (if fraction = 0 then .infinite negative else .nan)
  else if biased = 0 then .finite negative fraction leastExponent
  else .finite negative (fraction + hiddenBit) (biased - 1075)

def shape (x : Float) : Shape := .ofBits x.toBits

def isFinite (x : Float) : Bool :=
  match shape x with
  | .finite .. => true
  | _ => false

def nan : Float := 0.0 / 0.0

def infinity (negative : Bool) : Float := if negative then -1.0 / 0.0 else 1.0 / 0.0

end Forager.Number
