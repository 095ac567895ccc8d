import Forager.Json.Fill

/-!
# Records

What is kept about a run and about each of its generations, and how it is written. A record carries the version of
its form; `decode` refuses records of any version but the current one.
-/

namespace Forager.Archive

set_option autoImplicit false

open Json (Fill)

structure Version where
  schema : Int64 := 0
  codec : Int64 := 0
  deriving DecidableEq, Repr

def Version.current : Version := ⟨1, 1⟩

/-- One run and, once it is completed, its best strategy. -/
structure Run where
  version : Version := {}
  id : String := ""
  createdAt : Timestamp := .zero
  simulator : String := ""
  baseline : String := ""
  progenitor : String := ""
  population : Int64 := 0
  mutationRate : Float := 0
  repeats : Int64 := 0
  generations : Int64 := 0
  selection : String := ""
  seed : Int64 := 0
  workers : Int64 := 0
  completed : Bool := false
  bestFitness : Float := 0
  bestPrograms : List String := []

structure GenerationRecord where
  version : Version := {}
  runId : String := ""
  index : Int64 := 0
  mean : Float := 0
  max : Float := 0
  min : Float := 0
  diversity : Int64 := 0
  evaluations : Int64 := 0
  abortedRuns : Int64 := 0
  fittestId : String := ""
  /-- The programs of the fittest individual, if they were kept. -/
  fittestPrograms : Option (List String) := none

inductive DecodeError where
  | malformed
  | versionMismatch
  deriving DecidableEq, Repr

def DecodeError.message : DecodeError → String
  | .malformed => "malformed record"
  | .versionMismatch => "record version mismatch"

def integerJson (n : Int64) : Json := Json.ofInt n.toInt

/-! ## Writing -/

/-- The record of a run as an object, unless a number or the time cannot be written. -/
def Run.json? (r : Run) : Option Json := do
  guard r.createdAt.isStandard
  let rate ← Json.ofFloat? r.mutationRate
  let best ← Json.ofFloat? r.bestFitness
  return Json.ofFields ([
    ("schema_version", integerJson r.version.schema),
    ("codec_version", integerJson r.version.codec),
    ("id", Json.ofText r.id),
    ("created_at", Json.ofText r.createdAt.text),
    ("simulator", Json.ofText r.simulator),
    ("baseline", Json.ofText r.baseline),
    ("progenitor", Json.ofText r.progenitor),
    ("population", integerJson r.population),
    ("mutation_rate", rate),
    ("repeats", integerJson r.repeats),
    ("generations", integerJson r.generations),
    ("selection", Json.ofText r.selection),
    ("seed", integerJson r.seed),
    ("workers", integerJson r.workers),
    ("completed", .bool r.completed),
    ("best_fitness", best)] ++
    if r.bestPrograms.isEmpty then [] else [("best_programs", Json.ofTexts r.bestPrograms)])

/-- The record of a generation as an object, unless a number cannot be written. -/
def GenerationRecord.json? (g : GenerationRecord) : Option Json := do
  let mean ← Json.ofFloat? g.mean
  let max ← Json.ofFloat? g.max
  let min ← Json.ofFloat? g.min
  return Json.ofFields [
    ("schema_version", integerJson g.version.schema),
    ("codec_version", integerJson g.version.codec),
    ("run_id", Json.ofText g.runId),
    ("index", integerJson g.index),
    ("mean", mean),
    ("max", max),
    ("min", min),
    ("diversity", integerJson g.diversity),
    ("evaluations", integerJson g.evaluations),
    ("aborted_runs", integerJson g.abortedRuns),
    ("fittest_id", Json.ofText g.fittestId),
    ("fittest_programs", (g.fittestPrograms.map Json.ofTexts).getD .null)]

def Run.encode? (r : Run) : Option String := r.json?.map Json.print

def GenerationRecord.encode? (g : GenerationRecord) : Option String := g.json?.map Json.print

/-! ## Reading -/

def Run.fields : List (String × Fill Run) := [
  ("schema_version", .part (·.version.schema) (fun r x => { r with version.schema := x }) .integer),
  ("codec_version", .part (·.version.codec) (fun r x => { r with version.codec := x }) .integer),
  ("id", .part (·.id) (fun r x => { r with id := x }) .text),
  ("created_at", .part (·.createdAt) (fun r x => { r with createdAt := x }) .timestamp),
  ("simulator", .part (·.simulator) (fun r x => { r with simulator := x }) .text),
  ("baseline", .part (·.baseline) (fun r x => { r with baseline := x }) .text),
  ("progenitor", .part (·.progenitor) (fun r x => { r with progenitor := x }) .text),
  ("population", .part (·.population) (fun r x => { r with population := x }) .integer),
  ("mutation_rate", .part (·.mutationRate) (fun r x => { r with mutationRate := x }) .real),
  ("repeats", .part (·.repeats) (fun r x => { r with repeats := x }) .integer),
  ("generations", .part (·.generations) (fun r x => { r with generations := x }) .integer),
  ("selection", .part (·.selection) (fun r x => { r with selection := x }) .text),
  ("seed", .part (·.seed) (fun r x => { r with seed := x }) .integer),
  ("workers", .part (·.workers) (fun r x => { r with workers := x }) .integer),
  ("completed", .part (·.completed) (fun r x => { r with completed := x }) .flag),
  ("best_fitness", .part (·.bestFitness) (fun r x => { r with bestFitness := x }) .real),
  ("best_programs", .part (·.bestPrograms) (fun r x => { r with bestPrograms := x }) (.listOrEmpty "" .text))]

def GenerationRecord.fields : List (String × Fill GenerationRecord) := [
  ("schema_version", .part (·.version.schema) (fun g x => { g with version.schema := x }) .integer),
  ("codec_version", .part (·.version.codec) (fun g x => { g with version.codec := x }) .integer),
  ("run_id", .part (·.runId) (fun g x => { g with runId := x }) .text),
  ("index", .part (·.index) (fun g x => { g with index := x }) .integer),
  ("mean", .part (·.mean) (fun g x => { g with mean := x }) .real),
  ("max", .part (·.max) (fun g x => { g with max := x }) .real),
  ("min", .part (·.min) (fun g x => { g with min := x }) .real),
  ("diversity", .part (·.diversity) (fun g x => { g with diversity := x }) .integer),
  ("evaluations", .part (·.evaluations) (fun g x => { g with evaluations := x }) .integer),
  ("aborted_runs", .part (·.abortedRuns) (fun g x => { g with abortedRuns := x }) .integer),
  ("fittest_id", .part (·.fittestId) (fun g x => { g with fittestId := x }) .text),
  ("fittest_programs", .part (·.fittestPrograms) (fun g x => { g with fittestPrograms := x }) (.list "" .text))]

/-- The record that was read, if it has the current version. -/
def checkVersion {ρ : Type} (version : ρ → Version) : Option ρ → Except DecodeError ρ
  | none => .error .malformed
  | some r => if version r = .current then .ok r else .error .versionMismatch

def Run.decode (text : String) : Except DecodeError Run :=
  checkVersion (·.version) (Fill.read? (.record Run.fields) {} text)

def GenerationRecord.decode (text : String) : Except DecodeError GenerationRecord :=
  checkVersion (·.version) (Fill.read? (.record GenerationRecord.fields) {} text)

end Forager.Archive
