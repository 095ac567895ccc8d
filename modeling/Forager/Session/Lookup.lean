import Forager.Session.Basic

/-!
# Looking up runs

Runs are looked up in the store and, if they are not there, in the artifacts that earlier sessions left.
-/

namespace Forager

set_option autoImplicit false

structure RunItem where
  runId : String
  createdAt : Timestamp := .zero
  simulator : String
  population : Int64
  generations : Int64
  seed : Int64
  completed : Bool
  bestFitness : Float

structure RunDetail where
  item : RunItem
  bestPrograms : List String

def RunItem.ofRun (r : Archive.Run) : RunItem :=
  { runId := r.id
    createdAt := r.createdAt
    simulator := r.simulator
    population := r.population
    generations := r.generations
    seed := r.seed
    completed := r.completed
    bestFitness := r.bestFitness }

def Progress.ofRecord (g : Archive.GenerationRecord) : Progress :=
  ⟨g.index, g.mean, g.max, g.min, g.diversity, g.evaluations, g.abortedRuns⟩

/-- The figures of a generation in a fitness history, which does not keep the number of matches. -/
def Progress.ofLine (h : Archive.HistoryLine) : Progress :=
  ⟨h.generation, h.mean, h.max, h.min, h.diversity, 0, h.abortedRuns⟩

namespace Session

/-- How many runs are listed when no limit is given. -/
def standardLimit : Int := 20

def runs (s : Session) (limit : Int) : Except SessionError (List RunItem) := do
  let runs ← (s.store.listRuns (if limit ≤ 0 then standardLimit else limit)).mapError .store
  return runs.map .ofRun

/-- The generations of a run that left artifacts. -/
def artifactHistory (s : Session) (runId : String) : Except SessionError (List Progress) := do
  if s.artifactsDir = "" then throw (.noHistory runId)
  match ← (Archive.readHistory s.env.disk s.artifactsDir runId).mapError (.readArtifacts runId) with
  | none => throw (.noHistory runId)
  | some history => return (history.generations.getD []).map .ofLine

def history (s : Session) (runId : String) : Except SessionError (List Progress) := do
  if runId = "" then throw .noRunId
  match ← (s.store.getGenerations runId).mapError .store with
  | some records => return records.map .ofRecord
  | none => s.artifactHistory runId

/-- A run that left artifacts. Only completed runs do, and they do not keep the time. -/
def artifactRun (s : Session) (runId : String) : Except SessionError RunDetail := do
  if s.artifactsDir = "" then throw (.notFound runId)
  match ← (Archive.readConfig s.env.disk s.artifactsDir runId).mapError (.readArtifacts runId) with
  | none => throw (.notFound runId)
  | some config =>
    let history ← (Archive.readHistory s.env.disk s.artifactsDir runId).mapError (.readArtifacts runId)
    let programs ← (Archive.readPrograms s.env.disk s.artifactsDir runId).mapError (.readArtifacts runId)
    return {
      item :=
        { runId := config.runId
          simulator := config.simulator
          population := config.population
          generations := config.generations
          seed := config.seed
          completed := true
          bestFitness := (history.getD {}).finalBestFitness }
      bestPrograms := (programs.getD none).getD [] }

def run (s : Session) (runId : String) : Except SessionError RunDetail := do
  if runId = "" then throw .noRunId
  match ← (s.store.getRun runId).mapError .store with
  | some r => return ⟨.ofRun r, r.bestPrograms⟩
  | none => s.artifactRun runId

/-- Copies the artifacts of a run, or of the newest one if no id is given, and gives the path of the copy. -/
def exportRun (runId outDir : String) : Acts String := do
  let s ← get
  if s.artifactsDir = "" then throw .noArtifactsDir
  let out := if outDir = "" then s.exportsDir else outDir
  let id ←
    if runId ≠ "" then pure runId
    else match ← settle .artifacts (Archive.listIndex s.env.disk s.artifactsDir) with
      | [] => throw .nothingToExport
      | newest :: _ => pure newest.runId
  let path ← onFiles .artifacts (Archive.exportRun s.artifactsDir id out)
  return Disk.clean path

end Session

end Forager
