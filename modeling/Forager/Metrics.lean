import Forager.Progress

/-!
# Metrics

Figures about the progress of runs for a monitoring system: gauges show the last completed generation, and counters
add up over all generations. `text` writes them in the text format of such systems.
-/

namespace Forager

set_option autoImplicit false

structure Metrics where
  generation : Float := 0
  fitnessMean : Float := 0
  fitnessMax : Float := 0
  diversity : Float := 0
  evaluations : UInt64 := 0
  abortedRuns : UInt64 := 0

namespace Metrics

inductive CountError where
  | decrease
  deriving DecidableEq, Repr

def CountError.message : CountError → String
  | .decrease => "counter cannot decrease in value"

def count (total : UInt64) (n : Int64) : Except CountError UInt64 :=
  if n < 0 then .error .decrease else .ok (total + (Float.ofInt n.toInt).toUInt64)

/-- Takes note of a generation. What comes before a counter that fails stays noted. -/
def observe (p : Progress) : ExceptT CountError (StateM Metrics) Unit := do
  modify fun m => { m with
    generation := Float.ofInt p.index.toInt
    fitnessMean := p.mean
    fitnessMax := p.max
    diversity := Float.ofInt p.diversity.toInt }
  let evaluations ← liftM (count (← get).evaluations p.evaluations)
  modify fun m => { m with evaluations }
  let abortedRuns ← liftM (count (← get).abortedRuns p.abortedRuns)
  modify fun m => { m with abortedRuns }

inductive Kind where
  | counter
  | gauge
  deriving DecidableEq, Repr

def Kind.name : Kind → String
  | .counter => "counter"
  | .gauge => "gauge"

/-- A figure with its name and what it means. -/
structure Figure where
  name : String
  help : String
  kind : Kind
  value : Float

/-- The figure in three lines. Both zeros are written alike. -/
def Figure.text (f : Figure) : String :=
  let value := if f.value == 0 then "0" else Number.compact f.value
  s!"# HELP naptime_{f.name} {f.help}\n# TYPE naptime_{f.name} {f.kind.name}\nnaptime_{f.name} {value}\n"

def figures (m : Metrics) : List Figure := [
  ⟨"aborted_runs_total", "Simulator runs stopped early by a program error.", .counter,
    Float.ofNat m.abortedRuns.toNat⟩,
  ⟨"evaluations_total", "Simulator runs used to score individuals.", .counter, Float.ofNat m.evaluations.toNat⟩,
  ⟨"fitness_max", "Best fitness of the last completed generation.", .gauge, m.fitnessMax⟩,
  ⟨"fitness_mean", "Mean fitness of the last completed generation.", .gauge, m.fitnessMean⟩,
  ⟨"generation", "Index of the last completed generation.", .gauge, m.generation⟩,
  ⟨"population_diversity", "Distinct program fingerprints in the last completed generation.", .gauge, m.diversity⟩]

def text (m : Metrics) : String := String.join (m.figures.map Figure.text)

end Metrics

end Forager
