import Forager.Archive.Store
import Forager.Archive.Artifacts
import Forager.Breeding.Files
import Forager.Metrics

/-!
# Sessions

A session keeps a store of runs and, if there is one, an artifacts directory. Its operations read and write files,
look at the clock and take new run ids; all of that is in the `Environment`, and what they report is in the journal.
-/

namespace Forager

set_option autoImplicit false

structure Environment where
  disk : Disk
  /-- The time at each reading of the clock. -/
  clock : Nat → Timestamp
  /-- How often the clock was read. -/
  readings : Nat := 0
  /-- The run ids in the order in which they are taken. -/
  ids : Nat → String
  /-- How many run ids were taken. -/
  taken : Nat := 0
  /-- The time by the wall clock when artifacts are written, by the number of run ids taken. -/
  wall : Nat → Timestamp := clock

structure Session where
  env : Environment
  store : Archive.Store
  /-- Where completed runs leave their files; empty if they leave none. -/
  artifactsDir : String := ""
  exportsDir : String := "exports"
  metrics : Option Metrics := none
  journal : Journal := []

inductive SessionError where
  | noBaseline
  | noProgenitor
  | noGenerations
  | noTeam
  | noRunId
  | noArtifactsDir
  | nothingToExport
  | load (role : String) (e : Breeding.LoadError)
  | strategy (e : Breeding.LoadError)
  | category (path : String) (slot : Nat) (e : Program.CategoryError)
  | selection (e : Breeding.SelectionError)
  | setup (e : Breeding.SetupError)
  | saveRun (e : Archive.StoreError)
  | generation (index : Nat) (e : Breeding.EvolveError)
  | writeFittest (e : Breeding.WriteError)
  | writeArtifacts (e : Archive.ArtifactError)
  | store (e : Archive.StoreError)
  | noHistory (runId : String)
  | notFound (runId : String)
  | readArtifacts (runId : String) (e : Archive.ArtifactError)
  | artifacts (e : Archive.ArtifactError)
  | matchFailed (index : Nat) (e : MatchError)

/-- The wording of a program that fails its check; slots are counted from one. -/
def categoryMessage (slot : Nat) (e : Program.CategoryError) : String := s!"program {slot + 1}: {e.message}"

def SessionError.message : SessionError → String
  | .noBaseline => "baseline strategy path is required"
  | .noProgenitor => "progenitor strategy path is required"
  | .noGenerations => "generations must be > 0"
  | .noTeam => "team strategy path is required"
  | .noRunId => "run id is required"
  | .noArtifactsDir => "artifacts directory is not configured"
  | .nothingToExport => "no runs available to export"
  | .load role e => s!"load {role}: {e.message}"
  | .strategy e => e.message
  | .category path slot e => s!"{path}: {categoryMessage slot e}"
  | .selection e => e.message
  | .setup e => e.message
  | .saveRun e => s!"save run: {e.message}"
  | .generation index e => s!"generation {index}: {e.message}"
  | .writeFittest e => s!"write fittest strategy: {e.message}"
  | .writeArtifacts e => s!"write run artifacts: {e.message}"
  | .store e => e.message
  | .noHistory runId => s!"run {runId} has no stored generations"
  | .notFound runId => s!"run {runId} not found"
  | .readArtifacts runId e => s!"read artifacts of run {runId}: {e.message}"
  | .artifacts e => e.message
  | .matchFailed index e => s!"match {index}: {e.message}"

namespace Session

abbrev Acts := ExceptT SessionError (StateM Session)

/-- A session in an environment, with a store of this kind. An empty exports directory means the usual one. -/
def start (env : Environment) (storeKind artifactsDir exportsDir : String) : Except Archive.StoreError Session := do
  let store ← Archive.Store.openKind storeKind
  return { env, store, artifactsDir, exportsDir := if exportsDir = "" then "exports" else exportsDir }

/-- What has failed or not. -/
def settle {ε α : Type} (wrap : ε → SessionError) : Except ε α → Acts α
  | .ok x => return x
  | .error e => throw (wrap e)

def onFiles {ε α : Type} (wrap : ε → SessionError) (m : ExceptT ε (StateM Disk) α) : Acts α := do
  let s ← get
  match m.run s.env.disk with
  | (r, disk) =>
    set { s with env := { s.env with disk } }
    settle wrap r

def note (entries : Journal) : StateM Session Unit := modify fun s => { s with journal := s.journal ++ entries }

/-- The warnings about outdated operations in the programs of slot `slot` and later ones. -/
def deprecations (path : String) : (slot : Nat) → List Program.Expr → Journal
  | _, [] => []
  | slot, e :: rest =>
    e.deprecations.map (fun message => ⟨.warn, message, [("path", .text path), ("program", .integer (slot + 1))]⟩) ++
      deprecations path (slot + 1) rest

/-- The first program from slot `slot` on that fails its check. -/
def firstMisuse : (slot : Nat) → List Program.Expr → Option (Nat × Program.CategoryError)
  | _, [] => none
  | slot, e :: rest =>
    match Program.check e with
    | .ok () => firstMisuse (slot + 1) rest
    | .error x => some (slot, x)

/-- Requires that all programs of a strategy pass their check. -/
def requireChecked (path : String) (ind : Breeding.Individual) : Acts Unit :=
  match firstMisuse 0 ind.programs with
  | none => pure ()
  | some (slot, e) => throw (.category path slot e)

end Session

end Forager
