import Forager.Session.Basic
import Forager.Arena.Forage

/-!
# Evolving a strategy

`evolve` evolves a population in the forage arena for so many generations, keeps a record of every generation, and
at the end writes the fittest strategy and the artifacts of the run. A run that fails leaves what it did before.
-/

namespace Forager

set_option autoImplicit false

open Breeding (Individual Population)

structure RunRequest where
  baseline : String := ""
  progenitor : String := ""
  population : Int64 := 0
  mutationRate : Float := 0
  repeats : Int64 := 0
  generations : Int64 := 0
  seed : Int64 := 0
  workers : Int64 := 0
  selection : String := ""
  tournamentSize : Int64 := 0
  arena : Arena.Config := {}
  /-- Where the fittest strategy is written; empty if nowhere. -/
  outDir : String := ""

structure RunSummary where
  runId : String := ""
  generations : List Progress := []
  bestFitness : Float := 0
  bestPrograms : List String := []
  artifactsDir : String := ""

/-- A run that is ready to start. -/
structure Plan where
  record : Archive.Run
  population : Population

/-- What the observers of a run have noted. -/
structure Watch where
  store : Archive.Store
  metrics : Option Metrics
  /-- The generations of the summary. -/
  generations : List Progress := []
  /-- The generations that were reported. -/
  reported : List Progress := []

/-- A run and what it reported on the way. -/
structure Evolution where
  summary : RunSummary := {}
  reported : List Progress := []
  failure : Option SessionError := none

def generationRecord (runId : String) (g : Breeding.Generation) : Archive.GenerationRecord :=
  let p := Progress.ofGeneration g
  { version := .current
    runId
    index := p.index
    mean := p.mean
    max := p.max
    min := p.min
    diversity := p.diversity
    evaluations := p.evaluations
    abortedRuns := p.abortedRuns
    fittestId := g.fittest.id
    fittestPrograms := some (g.fittest.programs.map (·.print)) }

def keepRecord (runId : String) : Breeding.Observer Watch := fun g => do
  let w ← get
  match w.store.saveGeneration (generationRecord runId g) with
  | .ok store => set { w with store }
  | .error e => throw s!"save generation {g.index}: {e.message}"

def reportGeneration : Breeding.Observer Watch := fun g =>
  modify fun w =>
    let p := Progress.ofGeneration g
    { w with generations := w.generations ++ [p], reported := w.reported ++ [p] }

/-- Counts a generation in the metrics, if there are any. -/
def countGeneration : Breeding.Observer Watch := fun g => do
  let w ← get
  match w.metrics with
  | none => pure ()
  | some m =>
    match (Metrics.observe (.ofGeneration g)).run m with
    | (.ok (), m) => set { w with metrics := some m }
    | (.error e, m) =>
      set { w with metrics := some m }
      throw e.message

/-- All who are told about the generations of a run. -/
def observers (runId : String) : List (Breeding.Observer Watch) :=
  [keepRecord runId, reportGeneration, countGeneration]

/-- What has come of several generations. -/
structure Course where
  failure : Option Breeding.EvolveError
  population : Population
  watch : Watch
  journal : Journal

/-- Evolves a population for `count` generations, unless one fails. -/
def evolveFor (runId : String) : (count : Nat) → Deadline → Population → Watch → Journal → Course
  | 0, _, p, w, journal => ⟨none, p, w, journal⟩
  | count + 1, deadline, p, w, journal =>
    let (a, w) := p.evolve (observers runId) deadline w
    let journal := journal ++ a.journal
    match a.result with
    | .error e => ⟨some e, a.population, w, journal⟩
    | .ok _ => evolveFor runId count a.deadline a.population w journal

/-- What the artifacts of a completed run hold. -/
def runArtifacts (run : Archive.Run) (req : RunRequest) (summary : RunSummary) : Archive.Artifacts :=
  let arena := req.arena.withDefaults
  { config :=
      { runId := run.id
        simulator := run.simulator
        baseline := run.baseline
        progenitor := run.progenitor
        population := run.population
        mutationRate := run.mutationRate
        repeats := run.repeats
        generations := run.generations
        seed := run.seed
        workers := run.workers
        selection := run.selection
        tournamentSize := req.tournamentSize
        arena := ⟨.ofInt arena.maxSteps, .ofInt arena.treats⟩ }
    history := summary.generations.map fun p => ⟨p.index, p.mean, p.max, p.min, p.diversity, p.abortedRuns⟩
    finalBestFitness := summary.bestFitness
    bestPrograms := summary.bestPrograms
    createdAt := run.createdAt }

namespace Session

def takeId : StateM Session String := fun s =>
  (s.env.ids s.env.taken, { s with env := { s.env with taken := s.env.taken + 1 } })

def readClock : StateM Session Timestamp := fun s =>
  (s.env.clock s.env.readings, { s with env := { s.env with readings := s.env.readings + 1 } })

/-- A strategy that a run cannot do without. -/
def loadRole (role path : String) : Acts Individual := do
  settle (.load role) (Individual.load (← get).env.disk role path)

def saveRun (run : Archive.Run) : Acts Unit := do
  let s ← get
  let store ← settle .saveRun (s.store.saveRun run)
  set { s with store }

/-- Makes a run ready: the strategies are read, the run gets an id, and the first generation is bred. -/
def prepare (req : RunRequest) : Acts Plan := do
  if req.baseline = "" then throw .noBaseline
  if req.progenitor = "" then throw .noProgenitor
  if req.generations ≤ 0 then throw .noGenerations
  let baseline ← loadRole "baseline" req.baseline
  let progenitor ← loadRole "progenitor" req.progenitor
  note (deprecations req.baseline 0 baseline.programs)
  note (deprecations req.progenitor 0 progenitor.programs)
  let selector ← settle .selection (Breeding.Selector.ofName req.selection req.tournamentSize.toInt)
  let id ← takeId
  let simulator := Arena.forage req.arena
  let createdAt ← readClock
  let population ← settle .setup (Population.new
    { simulator := some simulator
      baseline := some baseline
      progenitor := some progenitor
      size := req.population.toInt
      rate := req.mutationRate
      repeats := req.repeats.toInt
      seed := req.seed
      selector })
  return {
    population
    record :=
      { version := .current
        id
        createdAt := createdAt.utc
        simulator := simulator.name
        baseline := req.baseline
        progenitor := req.progenitor
        population := req.population
        mutationRate := req.mutationRate
        repeats := req.repeats
        generations := req.generations
        selection := selector.name
        seed := req.seed
        workers := req.workers } }

def noteRun (runId : String) (entries : Journal) : StateM Session Unit :=
  note (entries.map (Journal.Entry.within [("run_id", .text runId)]))

def runPlan (plan : Plan) (generations : Nat) (deadline : Deadline) : StateM Session Course := do
  let s ← get
  let course := evolveFor plan.record.id generations deadline plan.population ⟨s.store, s.metrics, [], []⟩ []
  set { s with store := course.watch.store, metrics := course.watch.metrics }
  noteRun plan.record.id course.journal
  return course

/-- Writes what a completed run leaves, and gives the path of its artifacts. -/
def conclude (run : Archive.Run) (req : RunRequest) (best : Individual) (summary : RunSummary) : Acts String := do
  saveRun { run with
    completed := true
    bestFitness := summary.bestFitness
    bestPrograms := summary.bestPrograms }
  if req.outDir ≠ "" then onFiles .writeFittest (best.write req.outDir)
  let s ← get
  if s.artifactsDir = "" then return ""
  let now := s.env.wall s.env.taken
  let path ← onFiles .writeArtifacts (Archive.writeRun s.artifactsDir (runArtifacts run req summary) now)
  return Disk.clean path

def evolve (req : RunRequest) (deadline : Deadline) : StateM Session Evolution := do
  match ← (do
    let plan ← prepare req
    saveRun plan.record
    return plan : Acts Plan).run with
  | .error e => return { failure := some e }
  | .ok plan =>
    let id := plan.record.id
    noteRun id [⟨.info, "run started",
      [("population", .integer req.population.toInt), ("generations", .integer req.generations.toInt),
        ("seed", .integer req.seed.toInt), ("selection", .text plan.record.selection)]⟩]
    let course ← runPlan plan req.generations.toInt.toNat deadline
    let summary : RunSummary := { runId := id, generations := course.watch.generations }
    let reported := course.watch.reported
    match course.failure, course.population.best with
    | some e, _ => return ⟨summary, reported, some (.generation course.population.generation e)⟩
    | none, none => return ⟨summary, reported, none⟩
    | none, some best =>
      let summary := { summary with
        bestFitness := best.fitness
        bestPrograms := best.programs.map (·.print) }
      match ← (conclude plan.record req best summary).run with
      | .error e => return ⟨summary, reported, some e⟩
      | .ok artifactsDir =>
        noteRun id [⟨.info, "run completed", [("best_fitness", .real summary.bestFitness)]⟩]
        return ⟨{ summary with artifactsDir }, reported, none⟩

end Session

end Forager
