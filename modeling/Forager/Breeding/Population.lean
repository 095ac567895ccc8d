import Forager.Breeding.Selection

/-!
# Populations

A population evolves in generations. All individuals are evaluated against a fixed baseline, parents are drawn by
their fitness, and pairs of parents are crossed and mutated until the next generation is complete. A generation that
fails leaves the population as it was, up to fitness values that the next attempt computes again.
-/

namespace Forager.Breeding

set_option autoImplicit false

open Program (Expr)
open Chance (Draw Source)

/-- The summary of an evaluated generation. -/
structure Generation where
  index : Nat
  mean : Float
  max : Float
  min : Float
  /-- How many different strategies there were. -/
  diversity : Nat
  /-- How many matches were played. -/
  evaluations : Int
  abortedRuns : Nat
  fittest : Individual
  individuals : List Individual

structure Setup where
  simulator : Option Simulator := none
  baseline : Option Individual := none
  progenitor : Option Individual := none
  size : Int := 0
  rate : Float := 0
  repeats : Int := 0
  seed : Int64 := 0
  selector : Selector := .roulette

inductive SetupError where
  | noSimulator
  | noBaseline
  | noProgenitor
  | badSize (size : Int)
  | badRate (rate : Float)
  | badRepeats (repeats : Int)
  | progenitor (e : StrategyError)
  | breeding (e : BreedError)

def SetupError.message : SetupError → String
  | .noSimulator => "simulator is required"
  | .noBaseline => "baseline is required"
  | .noProgenitor => "progenitor is required"
  | .badSize size => s!"population size must be even and > 0, got {size}"
  | .badRate rate => s!"mutation rate must be in [0, 1], got {Number.compact rate}"
  | .badRepeats repeats => s!"repeats must be >= 1, got {repeats}"
  | .progenitor e => s!"progenitor: {e.message}"
  | .breeding e => e.message

/-- A population between two generations. -/
structure Population where
  simulator : Simulator
  opponent : List Expr
  rate : Float
  repeats : Int
  seed : Int64
  selector : Selector
  /-- How many generations were completed. -/
  generation : Nat := 0
  /-- The current generation, which was not evaluated yet. -/
  individuals : List Individual
  /-- The fittest individual of all completed generations, the first among equals. -/
  best : Option Individual := none
  /-- How many matches the simulator has played. -/
  played : Nat := 0

def individualId (generation index : Nat) : String := s!"g{generation}-i{index}"

namespace Population

/-- The individuals from `i` up to below `i + count` of the first generation, which are mutants of the progenitor. -/
def founders (progenitor : Individual) (rate : Float) : (count i : Nat) → Breeds (List Individual)
  | 0, _ => return []
  | count + 1, i => do
    let ind ← progenitor.mutant (individualId 0 i) rate
    let rest ← founders progenitor rate count (i + 1)
    return ind :: rest

/-- A population whose first generation is the progenitor and mutants of it. -/
def new (s : Setup) : Except SetupError Population :=
  match s.simulator, s.baseline, s.progenitor with
  | none, _, _ => .error .noSimulator
  | _, none, _ => .error .noBaseline
  | _, _, none => .error .noProgenitor
  | some simulator, some baseline, some progenitor =>
    if s.size ≤ 0 || s.size % 2 ≠ 0 then .error (.badSize s.size)
    else if !(0 ≤ s.rate && s.rate ≤ 1) then .error (.badRate s.rate)
    else if s.repeats < 1 then .error (.badRepeats s.repeats)
    else match Individual.new (individualId 0 0) progenitor.programs with
      | .error e => .error (.progenitor e)
      | .ok first =>
        match (founders progenitor s.rate (s.size.toNat - 1) 1).run (.ofSeed (Chance.selectionSeed s.seed (-1))) with
        | (.error e, _) => .error (.breeding e)
        | (.ok others, _) => .ok
            { simulator
              opponent := baseline.programs
              rate := s.rate
              repeats := s.repeats
              seed := s.seed
              selector := s.selector
              individuals := first :: others }

end Population

/-! ## One generation -/

inductive EvolveError where
  | evaluation (e : EvaluationError)
  | selection (e : SelectionError)
  | reproduction (first second : String) (e : BreedError)
  | observer (generation : Nat) (message : String)
  deriving DecidableEq, Repr

def EvolveError.message : EvolveError → String
  | .evaluation e => e.message
  | .selection e => e.message
  | .reproduction first second e => s!"reproduce {first} x {second}: {e.message}"
  | .observer generation message => s!"observe generation {generation}: {message}"

/-- Evaluates individuals in order, up to the first whose evaluation fails. The others stay as they are. -/
def evaluateAll (sim : Simulator) (opponent : List Expr) (repeats : Int) (seed : Int64) :
    List Individual → Playing → Option EvaluationError × List Individual × Playing
  | [], p => (none, [], p)
  | ind :: rest, p =>
    match ind.evaluate sim opponent repeats seed p with
    | (.error e, p) => (some e, ind :: rest, p)
    | (.ok ind, p) =>
      match evaluateAll sim opponent repeats seed rest p with
      | (e, rest, p) => (e, ind :: rest, p)

/-- The first of the fittest among `best` and other individuals. -/
def fittestFrom : Individual → List Individual → Individual
  | best, [] => best
  | best, ind :: rest => fittestFrom (if ind.fitness > best.fitness then ind else best) rest

/-- The least of `least` and the fitness of other individuals. -/
def leastFitnessFrom : Float → List Individual → Float
  | least, [] => least
  | least, ind :: rest => leastFitnessFrom (if ind.fitness < least then ind.fitness else least) rest

/-- How many different strategies there are. -/
def diversity (individuals : List Individual) : Nat := (individuals.map (·.fingerprint)).eraseDups.length

/-- The summary of an evaluated generation that is not empty. -/
def summarize (index : Nat) (repeats : Int) (first : Individual) (others : List Individual) : Generation :=
  let individuals := first :: others
  let fittest := fittestFrom first others
  { index
    mean := individuals.foldl (fun total ind => total + ind.fitness) 0 / Float.ofNat individuals.length
    max := fittest.fitness
    min := leastFitnessFrom first.fitness others
    diversity := diversity individuals
    evaluations := individuals.length * repeats
    abortedRuns := individuals.foldr (fun i n => i.aborted + n) 0
    fittest
    individuals }

abbrev Reproduces := ExceptT EvolveError Draw

/-- Draws `count` parents. A place without an individual is that of `fallback`. -/
def pickParents (selector : Selector) (individuals : List Individual) (fallback : Individual) :
    (count : Nat) → Reproduces (List Individual)
  | 0 => return []
  | count + 1 => do
    match ← (selector.pick individuals).run with
    | .error e => throw (.selection e)
    | .ok i =>
      let rest ← pickParents selector individuals fallback count
      return individuals.getD i fallback :: rest

/-- The children of pairs of parents, named from `i` on. -/
def reproduce (rate : Float) (generation : Nat) : (i : Nat) → List Individual → Reproduces (List Individual)
  | i, a :: b :: rest => do
    match ← (a.cross b (individualId generation i, individualId generation (i + 1)) rate).run with
    | .error e => throw (.reproduction a.id b.id e)
    | .ok (first, second) =>
      let rest ← reproduce rate generation (i + 2) rest
      return first :: second :: rest
  | _, _ => return []

/-- What comes of an attempt to complete a generation. -/
structure Attempt where
  result : Except EvolveError Generation
  population : Population
  deadline : Deadline
  journal : Journal

def Generation.entries (g : Generation) : Journal :=
  ⟨.debug, "generation complete",
    [("generation", .integer g.index), ("mean", .real g.mean), ("max", .real g.max),
      ("diversity", .integer g.diversity), ("aborted_runs", .integer g.abortedRuns)]⟩ ::
  if 0 < g.abortedRuns then
    [⟨.warn, "runs aborted on program errors",
      [("generation", .integer g.index), ("aborted_runs", .integer g.abortedRuns)]⟩]
  else []

namespace Population

def matchSeed (p : Population) : Int64 := Chance.derive p.seed (.ofNat p.generation)

def offspring (p : Population) (first : Individual) (others : List Individual) : Except EvolveError (List Individual) :=
  let individuals := first :: others
  let breed : Reproduces (List Individual) := do
    let parents ← pickParents p.selector individuals first individuals.length
    reproduce p.rate (p.generation + 1) 0 parents
  (breed.run (.ofSeed (Chance.selectionSeed p.seed (.ofNat p.generation)))).1

/-- The fitter of the best individual so far and the fittest of a generation, the former among equals. -/
def improve (best : Option Individual) (fittest : Individual) : Individual :=
  match best with
  | none => fittest
  | some b => if fittest.fitness > b.fitness then fittest else b

/-- Evaluates the current generation and breeds the next. If anything fails, only fitness values and the number of
matches played change. -/
def advance (p : Population) (deadline : Deadline) : Attempt :=
  match evaluateAll p.simulator p.opponent p.repeats p.matchSeed p.individuals ⟨p.played, deadline, []⟩ with
  | (failure, individuals, playing) =>
    let evaluated := { p with individuals, played := playing.before }
    match failure, individuals with
    | some e, _ => ⟨.error (.evaluation e), evaluated, playing.deadline, playing.journal⟩
    | none, [] => ⟨.error (.selection .noIndividuals), evaluated, playing.deadline, playing.journal⟩
    | none, first :: others =>
      match p.offspring first others with
      | .error e => ⟨.error e, evaluated, playing.deadline, playing.journal⟩
      | .ok next =>
        let g := summarize p.generation p.repeats first others
        { result := .ok g
          population := { evaluated with
            individuals := next
            generation := p.generation + 1
            best := some (improve p.best g.fittest) }
          deadline := playing.deadline
          journal := playing.journal ++ g.entries }

end Population

/-! ## Observers -/

/-- Someone who is told about every completed generation, with states in `σ`, and may object. -/
abbrev Observer (σ : Type) := Generation → ExceptT String (StateM σ) Unit

/-- Tells observers in order, up to the first who objects. -/
def notify {σ : Type} (g : Generation) : List (Observer σ) → ExceptT String (StateM σ) Unit
  | [] => pure ()
  | observer :: rest => do
    observer g
    notify g rest

/-- Completes a generation and tells the observers. The generation stays completed if one of them objects. -/
def Population.evolve {σ : Type} (p : Population) (observers : List (Observer σ)) (deadline : Deadline) (s : σ) :
    Attempt × σ :=
  let attempt := p.advance deadline
  match attempt.result with
  | .error _ => (attempt, s)
  | .ok g =>
    match (notify g observers).run s with
    | (.ok (), s) => (attempt, s)
    | (.error message, s) => ({ attempt with result := .error (.observer g.index message) }, s)

end Forager.Breeding
