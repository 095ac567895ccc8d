import Forager.Program.Build
import Forager.Sexp.Forest
import Forager.Chance.Source

/-!
# Crossover

Two programs exchange one subtree each. Both are planted in one forest, a list below the root of the first is drawn,
then one of the same sort below the root of the second, and the two are swapped. The sort is whether a list produces
a real.
-/

namespace Forager.Breeding

set_option autoImplicit false

open Program (Expr Kind)
open Chance (Draw Source)
open Sexp (Forest Ref LinkError)

/-- The texts of two programs after a crossover, and whether anything was exchanged. -/
structure Crossed where
  first : String
  second : String
  swapped : Bool
  deriving DecidableEq, Repr

/-- Whether a list that begins with this word produces a real. -/
def wordIsReal (word : String) : Bool :=
  match Kind.ofWord? word with
  | some k => k.category = .real
  | none => false

/-- Whether the list at a node produces a real. -/
def producesReal (f : Forest) (r : Ref) : Bool := wordIsReal (f.head r)

/-- The lists below a root, in preorder. -/
def sublists (f : Forest) (root : Ref) : List Ref :=
  (f.walk root fun _ => true).filter fun r => r ≠ root && f.isList r

/-- Exchanges a drawn subtree of each of two trees of a forest. If the second has none that fits, nothing changes. -/
def exchange (f : Forest) (a b : Ref) : Draw (Except LinkError (Forest × Bool)) := do
  let candidates := sublists f a
  if candidates.isEmpty then return .ok (f, false)
  let x ← Chance.choose a candidates
  let mates := (sublists f b).filter fun r => producesReal f r = producesReal f x
  if mates.isEmpty then return .ok (f, false)
  let y ← Chance.choose b mates
  return (f.swap x y).map (·, true)

def crossover (a b : Expr) : Draw (Except LinkError Crossed) := do
  let (f, ra) := Forest.empty.plant a.toSexp
  let (f, rb) := f.plant b.toSexp
  let result ← exchange f ra rb
  return result.map fun (g, swapped) => ⟨g.print ra, g.print rb, swapped⟩

end Forager.Breeding
