import Forager.Command.Action
import Forager.Session.Evolve

/-!
# Wrong use

What can be wrong with the arguments of the command line, and what a run asks of its request before it begins.
-/

namespace Forager.Command

set_option autoImplicit false

inductive UsageError where
  | noAction
  | unknownAction (word : String)
  | flag (e : FlagError)
  | arguments (action : Action) (words : List String)
  | noPaths
  | missing (name : String)
  | bestWithoutRun
  | population (n : Int64)
  | rate (x : Float)
  | tooFew (name : String) (n : Int64)
  | selection (name : String)

def programName : String := "naptimectl"

def unknownActionMessage (word : String) : String :=
  let close := suggestions word
  s!"unknown command {Text.quote word} for {Text.quote programName}" ++
    if close.isEmpty then "" else "\n\nDid you mean this?\n" ++ String.join (close.map fun name => s!"\t{name}\n")

def UsageError.message : UsageError → String
  | .noAction => "missing command"
  | .unknownAction word => unknownActionMessage word
  | .flag e => e.message
  | .arguments action words =>
    s!"{action.name} takes no arguments, got [" ++ " ".intercalate (words.map Text.quote) ++ "]"
  | .noPaths => "validate needs at least one strategy path"
  | .missing name => s!"--{name} is required"
  | .bestWithoutRun => "--best requires --run"
  | .population n => s!"--pop must be even and > 0, got {n}"
  | .rate x => s!"--rate must be in [0, 1], got {Number.compact x}"
  | .tooFew name n => s!"--{name} must be >= 1, got {n}"
  | .selection name => s!"--selection must be roulette or tournament, got {Text.quote name}"

def require (holds : Bool) (e : UsageError) : Except UsageError Unit := if holds then .ok () else .error e

def checkRequest (r : RunRequest) : Except UsageError Unit := do
  require (r.baseline ≠ "") (.missing "baseline")
  require (r.progenitor ≠ "") (.missing "progenitor")
  require (r.outDir ≠ "") (.missing "out")
  require (0 < r.population && r.population % 2 = 0) (.population r.population)
  require (0 ≤ r.mutationRate && r.mutationRate ≤ 1) (.rate r.mutationRate)
  require (1 ≤ r.repeats) (.tooFew "repeats" r.repeats)
  require (1 ≤ r.generations) (.tooFew "gens" r.generations)
  require (1 ≤ r.workers) (.tooFew "workers" r.workers)
  require (r.selection = "roulette" || r.selection = "tournament") (.selection r.selection)

end Forager.Command
