/-!
# Integers as scalars

The formulas that are evaluated in doubles, and reasoned about in exact arithmetic as well, take integers through
`OfInteger`.
-/

namespace Forager

set_option autoImplicit false

/-- A type into which integers can be taken. -/
class OfInteger (R : Type) where
  ofInteger : Int → R

export OfInteger (ofInteger)

instance : OfInteger Float := ⟨Float.ofInt⟩

end Forager
