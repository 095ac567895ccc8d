import Forager.Breeding.Individual

/-!
# Selection of parents

A selector draws one member of a generation. Roulette draws with probabilities proportional to fitness, tournament
takes the fittest of a few that are drawn evenly; these two have names, and there may be others.
-/

namespace Forager.Breeding

set_option autoImplicit false

open Chance (Draw Source)

/-! ## Roulette -/

section Roulette

variable {R : Type} [OfNat R 0] [Add R] [Sub R] [Mul R] [LT R] [LE R] [DecidableLT R] [DecidableLE R]

/-- The weight of a fitness, which is nothing if it is not positive. -/
def weight (fitness : R) : R := if fitness > 0 then fitness else 0

def totalWeight (fitness : List R) : R := fitness.foldl (fun total f => total + weight f) 0

/-- The place, counted from `i`, of the weight that `target` falls into when the weights are laid end to end; weights
of nothing are passed over. If rounding carries `target` beyond the end, the place of the last weight that was passed,
which is `last` before any. -/
def locate : (i : Nat) → (last : Option Nat) → (target : R) → List R → Option Nat
  | _, last, _, [] => last
  | i, last, target, f :: rest =>
    if weight f ≤ 0 then locate (i + 1) last target rest
    else if target < weight f then some i
    else locate (i + 1) (some i) (target - weight f) rest

/-- Draws a place with a probability proportional to its weight, or evenly if there is no weight at all, given the ways
to draw a fraction below one and a number below another. There is no place if the search passes no weight. -/
def spin {m : Type → Type} [Monad m] (unit : m R) (below : Nat → m Nat) (fitness : List R) : m (Option Nat) :=
  let total := totalWeight fitness
  if total ≤ 0 then some <$> below fitness.length
  else do
    let u ← unit
    return locate 0 none (u * total) fitness

end Roulette

/-- Draws a place with a probability proportional to its weight, in doubles. -/
def roulette (fitness : List Float) : Draw (Option Nat) := spin Chance.unit Chance.below fitness

/-! ## Tournament -/

/-- The fittest of `best` and `count` more places that are drawn evenly, the first drawn among equals. -/
def tournamentFrom (fitness : List Float) : (count best : Nat) → Draw Nat
  | 0, best => return best
  | count + 1, best => do
    let rival ← Chance.below fitness.length
    let best := if fitness.getD rival 0 > fitness.getD best 0 then rival else best
    tournamentFrom fitness count best

def standardTournament : Int := 3

/-- The fittest of `size` places that are drawn evenly. -/
def tournament (size : Int) (fitness : List Float) : Draw Nat := do
  let size := if size ≤ 0 then standardTournament else size
  let best ← Chance.below fitness.length
  tournamentFrom fitness (size - 1).toNat best

/-! ## Selectors -/

inductive SelectionError where
  | noSource
  | noIndividuals
  /-- The search for a place passed no weight. -/
  | noPlace
  | unknown (name : String)
  /-- Another complaint of a selector. -/
  | failure (message : String)
  deriving DecidableEq, Repr

def SelectionError.message : SelectionError → String
  | .noSource => noSourceMessage
  | .noIndividuals => "no individuals to select from"
  | .noPlace => "index out of range [-1]"
  | .unknown name => s!"unknown selection strategy: {name}"
  | .failure message => message

/-- A way to draw parents. `pick` draws the place of one among individuals, and may fail. -/
structure Selector where
  name : String
  pick : List Individual → ExceptT SelectionError Draw Nat

namespace Selector

/-- The selector that draws a place by the fitness of the individuals, of whom there must be one at least. -/
def byFitness (name : String) (draw : List Float → Draw (Option Nat)) : Selector where
  name
  pick individuals :=
    if individuals.isEmpty then throw .noIndividuals
    else do
      match ← draw (individuals.map (·.fitness)) with
      | some i => return i
      | none => throw .noPlace

/-- Draws individuals with probabilities proportional to their fitness. -/
def roulette : Selector := byFitness "roulette" Breeding.roulette

/-- Takes the fittest of a few individuals that are drawn evenly. -/
def tournament (size : Int) : Selector :=
  byFitness "tournament" fun fitness => some <$> Breeding.tournament size fitness

/-- The selector with this name; roulette if none is given. -/
def ofName (name : String) (tournamentSize : Int) : Except SelectionError Selector :=
  if name = "" || name = "roulette" then .ok .roulette
  else if name = "tournament" then .ok (.tournament tournamentSize)
  else .error (.unknown name)

/-- Draws a place among individuals of these fitness values, given a source of chance. -/
def pickFrom (s : Selector) (source : Option Source) (fitness : List Float) : Except SelectionError (Nat × Source) :=
  match source with
  | none => .error .noSource
  | some source =>
    match (s.pick (fitness.map fun f => { Individual.default "" with fitness := f })).run source with
    | (.ok i, source) => .ok (i, source)
    | (.error e, _) => .error e

end Selector

def crossoverFrom (source : Option Source) (a b : Program.Expr) : Except BreedError (Crossed × Source) :=
  match source with
  | none => .error .noSource
  | some source =>
    match (crossover a b).run source with
    | (.ok crossed, source) => .ok (crossed, source)
    | (.error e, _) => .error (.swap e)

end Forager.Breeding
