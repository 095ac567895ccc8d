import Forager.Breeding.Population

/-!
# Progress

What is reported about a completed generation, in numbers of 64 bits.
-/

namespace Forager

set_option autoImplicit false

structure Progress where
  index : Int64 := 0
  mean : Float := 0
  max : Float := 0
  min : Float := 0
  diversity : Int64 := 0
  evaluations : Int64 := 0
  abortedRuns : Int64 := 0

def Progress.ofGeneration (g : Breeding.Generation) : Progress :=
  { index := .ofNat g.index
    mean := g.mean
    max := g.max
    min := g.min
    diversity := .ofNat g.diversity
    evaluations := .ofInt g.evaluations
    abortedRuns := .ofNat g.abortedRuns }

end Forager
