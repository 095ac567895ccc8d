/-!
# Derived seeds

From one seed, `derive` makes the seeds of any number of numbered trials: it walks along a sequence with a fixed odd
stride and mixes the bits of the place reached.
-/

namespace Forager.Chance

set_option autoImplicit false

def stride : UInt64 := 0x9E3779B97F4A7C15

def mix (z : UInt64) : UInt64 :=
  let z := (z ^^^ (z >>> 30)) * 0xBF58476D1CE4E5B9
  let z := (z ^^^ (z >>> 27)) * 0x94D049BB133111EB
  z ^^^ (z >>> 31)

/-- The seed of trial `index` under the seed `base`. -/
def derive (base index : Int64) : Int64 :=
  ⟨mix (base.toUInt64 + (index + 1).toUInt64 * stride)⟩

/-- The seed that the selection of generation `generation` draws from, apart from all seeds of its matches. -/
def selectionSeed (base generation : Int64) : Int64 := derive (~~~base) generation

end Forager.Chance
