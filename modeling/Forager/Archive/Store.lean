import Forager.Archive.Record
import Forager.Text.Utf8

/-!
# Stores

A store keeps runs by their ids and generations by run and index, in memory. It has to be initialized first, which
empties it. Reading gives what was saved last.
-/

namespace Forager.Archive

set_option autoImplicit false

/-- What a store holds: at most one run of each id, and at most one generation of each run and index. -/
structure Holdings where
  runs : List Run := []
  generations : List GenerationRecord := []

/-- A store, which holds nothing until it is initialized. -/
structure Store where
  holdings : Option Holdings := none

inductive StoreError where
  | notInitialized
  | noDatabase
  | unknownKind (kind : String)
  deriving DecidableEq, Repr

def StoreError.message : StoreError → String
  | .notInitialized => "store is not initialized"
  | .noDatabase => "sqlite backend unavailable in this build; rebuild with -tags sqlite"
  | .unknownKind kind => s!"unsupported store backend: {kind}"

/-- Puts a record in the place of the one with the same key, or at the end if there is none. -/
def upsert {ρ : Type} (same : ρ → ρ → Bool) (r : ρ) : List ρ → List ρ
  | [] => [r]
  | x :: rest => if same x r then r :: rest else x :: upsert same r rest

namespace Run

/-- The order of a list of runs: the newest first, and runs of the same moment by id. -/
def before (a b : Run) : Bool :=
  if a.createdAt.instant = b.createdAt.instant then Text.bytes a.id ≤ Text.bytes b.id
  else b.createdAt.instant < a.createdAt.instant

end Run

namespace Store

/-- A store of a kind, which is not initialized yet. -/
def new (kind : String) : Except StoreError Store :=
  if kind = "" || kind = "memory" then .ok {}
  else if kind = "sqlite" then .error .noDatabase
  else .error (.unknownKind kind)

/-- The initialized store, which is empty. -/
def init (_ : Store) : Store := ⟨some {}⟩

def openKind (kind : String) : Except StoreError Store := (new kind).map init

/-- What the store holds, if it was initialized. -/
def contents (s : Store) : Except StoreError Holdings :=
  match s.holdings with
  | some h => .ok h
  | none => .error .notInitialized

def saveRun (s : Store) (r : Run) : Except StoreError Store := do
  let h ← s.contents
  return ⟨some { h with runs := upsert (fun a b => a.id == b.id) r h.runs }⟩

def getRun (s : Store) (id : String) : Except StoreError (Option Run) := do
  return (← s.contents).runs.find? (·.id == id)

/-- The runs in order, up to `limit` of them if it is positive. -/
def listRuns (s : Store) (limit : Int) : Except StoreError (List Run) := do
  let runs := (← s.contents).runs.mergeSort Run.before
  return if 0 < limit then runs.take limit.toNat else runs

def saveGeneration (s : Store) (g : GenerationRecord) : Except StoreError Store := do
  let h ← s.contents
  let kept := { g with fittestPrograms := g.fittestPrograms.filter fun ps => !ps.isEmpty }
  let same (a b : GenerationRecord) : Bool := a.runId == b.runId && a.index == b.index
  return ⟨some { h with generations := upsert same kept h.generations }⟩

/-- The generations of a run by index, if there are any. -/
def getGenerations (s : Store) (runId : String) : Except StoreError (Option (List GenerationRecord)) := do
  let records := ((← s.contents).generations.filter (·.runId == runId)).mergeSort fun a b => a.index ≤ b.index
  return if records.isEmpty then none else some records

end Store

end Forager.Archive
