import Forager.Archive.Record
import Forager.Disk.Basic

/-!
# Artifacts

A completed run leaves a directory of its own in the artifacts directory, with its configuration, its fitness history
(also as a table), and its best programs. An index in the artifacts directory lists all runs. `exportRun` copies the
directory of a run elsewhere.
-/

namespace Forager.Archive

set_option autoImplicit false

open Json (Fill)
open Disk (FileError)

/-- What is kept about the arena of a run. -/
structure ArenaSettings where
  maxSteps : Int64 := 0
  treats : Int64 := 0
  deriving DecidableEq, Repr

structure RunConfig where
  runId : String := ""
  simulator : String := ""
  baseline : String := ""
  progenitor : String := ""
  population : Int64 := 0
  mutationRate : Float := 0
  repeats : Int64 := 0
  generations : Int64 := 0
  seed : Int64 := 0
  workers : Int64 := 0
  selection : String := ""
  tournamentSize : Int64 := 0
  arena : ArenaSettings := {}

structure HistoryLine where
  generation : Int64 := 0
  mean : Float := 0
  max : Float := 0
  min : Float := 0
  diversity : Int64 := 0
  abortedRuns : Int64 := 0

structure FitnessHistory where
  generations : Option (List HistoryLine) := none
  finalBestFitness : Float := 0

structure IndexEntry where
  runId : String := ""
  simulator : String := ""
  population : Int64 := 0
  generations : Int64 := 0
  seed : Int64 := 0
  workers : Int64 := 0
  finalBestFitness : Float := 0
  createdAtUtc : String := ""

/-- All that a completed run leaves. -/
structure Artifacts where
  config : RunConfig
  history : List HistoryLine
  finalBestFitness : Float
  bestPrograms : List String
  createdAt : Timestamp

inductive ArtifactError where
  | noRunId
  | file (e : FileError)
  /-- A number cannot be written, or a file cannot be read as what it should hold. -/
  | encoding
  deriving DecidableEq, Repr

def ArtifactError.message : ArtifactError → String
  | .noRunId => "run id is required"
  | .file e => e.message
  | .encoding => "malformed artifact"

/-! ## Writing values -/

/-- A field that is left out when its number is zero. -/
def unlessZero (key : String) (n : Int64) : List (String × Json) := if n = 0 then [] else [(key, integerJson n)]

def RunConfig.json? (c : RunConfig) : Option Json := do
  let rate ← Json.ofFloat? c.mutationRate
  return Json.ofFields ([
    ("run_id", Json.ofText c.runId),
    ("simulator", Json.ofText c.simulator),
    ("baseline", Json.ofText c.baseline),
    ("progenitor", Json.ofText c.progenitor),
    ("population", integerJson c.population),
    ("mutation_rate", rate),
    ("repeats", integerJson c.repeats),
    ("generations", integerJson c.generations),
    ("seed", integerJson c.seed),
    ("workers", integerJson c.workers),
    ("selection", Json.ofText c.selection)] ++
    unlessZero "tournament_size" c.tournamentSize ++
    [("arena", Json.ofFields (unlessZero "max_steps" c.arena.maxSteps ++ unlessZero "treats" c.arena.treats))])

def HistoryLine.json? (h : HistoryLine) : Option Json := do
  let mean ← Json.ofFloat? h.mean
  let max ← Json.ofFloat? h.max
  let min ← Json.ofFloat? h.min
  return Json.ofFields ([
    ("generation", integerJson h.generation),
    ("mean", mean),
    ("max", max),
    ("min", min),
    ("diversity", integerJson h.diversity)] ++
    unlessZero "aborted_runs" h.abortedRuns)

def FitnessHistory.json? (h : FitnessHistory) : Option Json := do
  let lines ← match h.generations with
    | none => some Json.null
    | some lines => (lines.mapM HistoryLine.json?).map Json.array
  let best ← Json.ofFloat? h.finalBestFitness
  return Json.ofFields [("generations", lines), ("final_best_fitness", best)]

def IndexEntry.json? (e : IndexEntry) : Option Json := do
  let best ← Json.ofFloat? e.finalBestFitness
  return Json.ofFields [
    ("run_id", Json.ofText e.runId),
    ("simulator", Json.ofText e.simulator),
    ("population", integerJson e.population),
    ("generations", integerJson e.generations),
    ("seed", integerJson e.seed),
    ("workers", integerJson e.workers),
    ("final_best_fitness", best),
    ("created_at_utc", Json.ofText e.createdAtUtc)]

def indexJson? (entries : List IndexEntry) : Option Json := (entries.mapM IndexEntry.json?).map Json.array

/-- The history as a table with a line for each generation. -/
def seriesText (history : List HistoryLine) : String :=
  String.join ("generation,mean,max,min\n" :: history.map fun h =>
    s!"{h.generation.toInt},{Number.plain h.mean},{Number.plain h.max},{Number.plain h.min}\n")

/-! ## Reading values -/

def ArenaSettings.fields : List (String × Fill ArenaSettings) := [
  ("max_steps", .part (·.maxSteps) (fun a x => { a with maxSteps := x }) .integer),
  ("treats", .part (·.treats) (fun a x => { a with treats := x }) .integer)]

def RunConfig.fields : List (String × Fill RunConfig) := [
  ("run_id", .part (·.runId) (fun c x => { c with runId := x }) .text),
  ("simulator", .part (·.simulator) (fun c x => { c with simulator := x }) .text),
  ("baseline", .part (·.baseline) (fun c x => { c with baseline := x }) .text),
  ("progenitor", .part (·.progenitor) (fun c x => { c with progenitor := x }) .text),
  ("population", .part (·.population) (fun c x => { c with population := x }) .integer),
  ("mutation_rate", .part (·.mutationRate) (fun c x => { c with mutationRate := x }) .real),
  ("repeats", .part (·.repeats) (fun c x => { c with repeats := x }) .integer),
  ("generations", .part (·.generations) (fun c x => { c with generations := x }) .integer),
  ("seed", .part (·.seed) (fun c x => { c with seed := x }) .integer),
  ("workers", .part (·.workers) (fun c x => { c with workers := x }) .integer),
  ("selection", .part (·.selection) (fun c x => { c with selection := x }) .text),
  ("tournament_size", .part (·.tournamentSize) (fun c x => { c with tournamentSize := x }) .integer),
  ("arena", .part (·.arena) (fun c x => { c with arena := x }) (.record ArenaSettings.fields))]

def HistoryLine.fields : List (String × Fill HistoryLine) := [
  ("generation", .part (·.generation) (fun h x => { h with generation := x }) .integer),
  ("mean", .part (·.mean) (fun h x => { h with mean := x }) .real),
  ("max", .part (·.max) (fun h x => { h with max := x }) .real),
  ("min", .part (·.min) (fun h x => { h with min := x }) .real),
  ("diversity", .part (·.diversity) (fun h x => { h with diversity := x }) .integer),
  ("aborted_runs", .part (·.abortedRuns) (fun h x => { h with abortedRuns := x }) .integer)]

def FitnessHistory.fields : List (String × Fill FitnessHistory) := [
  ("generations", .part (·.generations) (fun h x => { h with generations := x })
    (.list {} (.record HistoryLine.fields))),
  ("final_best_fitness", .part (·.finalBestFitness) (fun h x => { h with finalBestFitness := x }) .real)]

def IndexEntry.fields : List (String × Fill IndexEntry) := [
  ("run_id", .part (·.runId) (fun e x => { e with runId := x }) .text),
  ("simulator", .part (·.simulator) (fun e x => { e with simulator := x }) .text),
  ("population", .part (·.population) (fun e x => { e with population := x }) .integer),
  ("generations", .part (·.generations) (fun e x => { e with generations := x }) .integer),
  ("seed", .part (·.seed) (fun e x => { e with seed := x }) .integer),
  ("workers", .part (·.workers) (fun e x => { e with workers := x }) .integer),
  ("final_best_fitness", .part (·.finalBestFitness) (fun e x => { e with finalBestFitness := x }) .real),
  ("created_at_utc", .part (·.createdAtUtc) (fun e x => { e with createdAtUtc := x }) .text)]

/-! ## Files -/

def indexFile : String := "run_index.json"

def configFile : String := "config.json"

def historyFile : String := "fitness_history.json"

def seriesFile : String := "fitness_series.csv"

def programsFile : String := "best_programs.json"

/-- The value in a file, if the file is there. -/
def readValue {α : Type} (fill : Fill α) (blank : α) (d : Disk) (path : String) : Except ArtifactError (Option α) :=
  match d.readFile? path with
  | .error e => .error (.file e)
  | .ok none => .ok none
  | .ok (some bytes) =>
    match fill.read? blank (Text.decode bytes) with
    | some x => .ok (some x)
    | none => .error .encoding

/-- The index, which is empty if there is none. -/
def readIndex (d : Disk) (base : String) : Except ArtifactError (List IndexEntry) := do
  let index ← readValue (.listOrEmpty {} (.record IndexEntry.fields)) [] d (Disk.join base indexFile)
  return index.getD []

/-- The order of the index: later timestamps first, by their texts. -/
def IndexEntry.newerOrSame (a b : IndexEntry) : Bool := Text.bytes b.createdAtUtc ≤ Text.bytes a.createdAtUtc

/-- The index, newest first. Of runs with the same timestamp the one that was added last comes first. -/
def listIndex (d : Disk) (base : String) : Except ArtifactError (List IndexEntry) := do
  return (← readIndex d base).reverse.mergeSort IndexEntry.newerOrSame

def runFile (base runId file : String) : String := Disk.join (Disk.join base runId) file

def readConfig (d : Disk) (base runId : String) : Except ArtifactError (Option RunConfig) :=
  readValue (.record RunConfig.fields) {} d (runFile base runId configFile)

def readHistory (d : Disk) (base runId : String) : Except ArtifactError (Option FitnessHistory) :=
  readValue (.record FitnessHistory.fields) {} d (runFile base runId historyFile)

/-- The best programs of a run, if they are there. -/
def readPrograms (d : Disk) (base runId : String) : Except ArtifactError (Option (Option (List String))) :=
  readValue (.list "" .text) none d (runFile base runId programsFile)

abbrev Files := ExceptT ArtifactError (StateM Disk)

def perform {α : Type} (m : Disk.Does α) : Files α := m.adapt .file

/-- Writes a value, if it can be written. -/
def writeValue (path : String) : Option Json → Files Unit
  | none => throw .encoding
  | some j => perform (Disk.writeFile path j.pretty.toUTF8)

/-- Puts an entry into the index, in the place of the one of the same run if there is one. -/
def replaceEntry (entry : IndexEntry) : List IndexEntry → List IndexEntry
  | [] => [entry]
  | e :: rest => if e.runId = entry.runId then entry :: rest else e :: replaceEntry entry rest

def appendIndex (base : String) (entry : IndexEntry) : Files Unit := do
  if entry.runId = "" then throw .noRunId
  perform (Disk.mkdirAll base)
  match readIndex (← get) base with
  | .error e => throw e
  | .ok index => writeValue (Disk.join base indexFile) (indexJson? (replaceEntry entry index))

def Artifacts.entry (a : Artifacts) : IndexEntry :=
  { runId := a.config.runId
    simulator := a.config.simulator
    population := a.config.population
    generations := a.config.generations
    seed := a.config.seed
    workers := a.config.workers
    finalBestFitness := a.finalBestFitness
    createdAtUtc := a.createdAt.utc.text }

/-- The artifacts as they are written at the time `now`, at which a run without a creation time counts as created. -/
def Artifacts.dated (a : Artifacts) (now : Timestamp) : Artifacts :=
  if a.createdAt.isZero then { a with createdAt := now } else a

/-- Writes the directory of a run, adds it to the index, and gives the path of the directory. -/
def recordRun (base : String) (a : Artifacts) : Files String := do
  let id := a.config.runId
  if id = "" then throw .noRunId
  let dir := Disk.join base id
  perform (Disk.mkdirAll dir)
  writeValue (Disk.join dir configFile) a.config.json?
  writeValue (Disk.join dir historyFile) (FitnessHistory.json? ⟨some a.history, a.finalBestFitness⟩)
  perform (Disk.writeFile (Disk.join dir seriesFile) (seriesText a.history).toUTF8)
  writeValue (Disk.join dir programsFile) (some (Json.ofTexts a.bestPrograms))
  appendIndex base a.entry
  return dir

/-- Writes what a run leaves. `now` is what the clock says; it counts only for a run without a creation time. -/
def writeRun (base : String) (a : Artifacts) (now : Timestamp := .zero) : Files String := recordRun base (a.dated now)

def copyFiles (source destination : String) : List String → Files Unit
  | [] => pure ()
  | file :: rest => do
    perform (Disk.copyFile (Disk.join source file) (Disk.join destination file))
    copyFiles source destination rest

/-- Copies the directory of a run into another directory and gives the path of the copy. The table need not be there. -/
def exportRun (base runId out : String) : Files String := do
  if runId = "" then throw .noRunId
  let source := Disk.join base runId
  let destination := Disk.join out runId
  let _ ← perform (liftM ((← get).stat source))
  perform (Disk.mkdirAll destination)
  copyFiles source destination [configFile, historyFile, programsFile]
  match (← get).stat (Disk.join source seriesFile) with
  | .ok _ => copyFiles source destination [seriesFile]
  | .error e => if e.reason ≠ .missing then throw (.file e)
  return destination

end Forager.Archive
