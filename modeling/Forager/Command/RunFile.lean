import Forager.Yaml.Fill
import Forager.Session.Evolve

/-!
# Run files

A run file is a YAML mapping that gives some of the fields of a run request. `apply` lets it fill in those that were
not given on the command line.
-/

namespace Forager.Command

set_option autoImplicit false

structure ArenaFile where
  maxSteps : Option Int64 := none
  treats : Option Int64 := none

structure RunFile where
  baseline : Option String := none
  progenitor : Option String := none
  population : Option Int64 := none
  mutationRate : Option Float := none
  repeats : Option Int64 := none
  generations : Option Int64 := none
  output : Option String := none
  seed : Option Int64 := none
  workers : Option Int64 := none
  selection : Option String := none
  tournamentSize : Option Int64 := none
  arena : ArenaFile := {}

inductive RunFileError where
  | unread (e : Disk.FileError)
  | malformed (path : String)

def RunFileError.message : RunFileError → String
  | .unread e => s!"read run config: {e.message}"
  | .malformed path => s!"parse run config {path}: yaml: malformed document"

namespace RunFile

open Yaml.Fill (part text integer real)

def arenaFields : List (String × Yaml.Fill ArenaFile) :=
  [("max_steps", part (·.maxSteps) (fun a v => { a with maxSteps := v }) integer),
    ("treats", part (·.treats) (fun a v => { a with treats := v }) integer)]

def fields : List (String × Yaml.Fill RunFile) :=
  [("baseline", part (·.baseline) (fun f v => { f with baseline := v }) text),
    ("progenitor", part (·.progenitor) (fun f v => { f with progenitor := v }) text),
    ("population", part (·.population) (fun f v => { f with population := v }) integer),
    ("mutation_rate", part (·.mutationRate) (fun f v => { f with mutationRate := v }) real),
    ("repeats", part (·.repeats) (fun f v => { f with repeats := v }) integer),
    ("generations", part (·.generations) (fun f v => { f with generations := v }) integer),
    ("output", part (·.output) (fun f v => { f with output := v }) text),
    ("seed", part (·.seed) (fun f v => { f with seed := v }) integer),
    ("workers", part (·.workers) (fun f v => { f with workers := v }) integer),
    ("selection", part (·.selection) (fun f v => { f with selection := v }) text),
    ("tournament_size", part (·.tournamentSize) (fun f v => { f with tournamentSize := v }) integer),
    ("arena", part (·.arena) (fun f v => { f with arena := v }) (Yaml.Fill.record arenaFields))]

def ofBytes? (bytes : ByteArray) : Option RunFile := do
  Yaml.Fill.record fields {} (← Yaml.parse? (← String.fromUTF8? bytes))

def load (d : Disk) (path : String) : Except RunFileError RunFile := do
  let bytes ← (d.readFile path).mapError .unread
  match ofBytes? bytes with
  | some f => .ok f
  | none => .error (.malformed path)

/-- A field that the file gives, unless its flag was given. -/
def override {α : Type} (given : String → Bool) (flag : String) (value : Option α) (current : α) : α :=
  if given flag then current else value.getD current

/-- Fills in a request; what was given by flags stays. -/
def apply (f : RunFile) (given : String → Bool) (r : RunRequest) : RunRequest :=
  { r with
    baseline := override given "baseline" f.baseline r.baseline
    progenitor := override given "progenitor" f.progenitor r.progenitor
    population := override given "pop" f.population r.population
    mutationRate := override given "rate" f.mutationRate r.mutationRate
    repeats := override given "repeats" f.repeats r.repeats
    generations := override given "gens" f.generations r.generations
    outDir := override given "out" f.output r.outDir
    seed := override given "seed" f.seed r.seed
    workers := override given "workers" f.workers r.workers
    selection := override given "selection" f.selection r.selection
    tournamentSize := override given "tournament-size" f.tournamentSize r.tournamentSize
    arena := { r.arena with
      maxSteps := override given "max-steps" (f.arena.maxSteps.map Int64.toInt) r.arena.maxSteps
      treats := override given "treats" (f.arena.treats.map Int64.toInt) r.arena.treats } }

end RunFile

end Forager.Command
