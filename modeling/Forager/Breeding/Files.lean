import Forager.Breeding.Individual
import Forager.Disk.Basic
import Forager.Text.Natural

/-!
# Strategies in files

A strategy is kept in one program file, or in a directory with a program file for each slot. The slots of a directory
are its visible files in natural order of their names, so that `10.sexp` comes after `9.sexp`. Links are passed over
when a directory is read, but programs are written through them.
-/

namespace Forager.Breeding

set_option autoImplicit false

open Program (Expr TextError)
open Disk (FileError)

inductive LoadError where
  | file (e : FileError)
  | text (path : String) (e : TextError)
  | empty (path : String)
  | strategy (e : StrategyError)
  deriving DecidableEq, Repr

def LoadError.message : LoadError → String
  | .file e => e.message
  | .text path e => s!"{path}: {e.message}"
  | .empty path => s!"{path}: {StrategyError.empty.message}"
  | .strategy e => e.message

def readProgram (d : Disk) (path : String) : Except LoadError Expr :=
  match d.readFile path with
  | .error e => .error (.file e)
  | .ok bytes => (Program.parseProgram (Text.decode bytes)).mapError (.text path)

/-- Whether an item of a directory is a program file: a visible regular file. -/
def isProgramFile : String × Disk.Item → Bool
  | (name, .file _) => name.toList.head? ≠ some '.'
  | (_, .directory) | (_, .link _) => false

/-- The names of the program files among the items of a directory, in natural order. -/
def programNames (items : List (String × Disk.Item)) : List String :=
  Text.Natural.sort ((items.filter isProgramFile).map (·.1))

def readPrograms (d : Disk) (path : String) : Except LoadError (List Expr) :=
  match d.stat path with
  | .error e => .error (.file e)
  | .ok (.file _) => (readProgram d path).map ([·])
  | .ok .directory =>
    let names := programNames (d.list (Disk.Place.ofPath path))
    if names.isEmpty then .error (.empty path) else names.mapM fun name => readProgram d (Disk.join path name)

namespace Individual

def load (d : Disk) (id path : String) : Except LoadError Individual := do
  let programs ← readPrograms d path
  (Individual.new id programs).mapError .strategy

/-- The strategy at a path, or the one that does nothing if the path is empty or has no strategy. -/
def loadOrDefault (d : Disk) (id path : String) : Individual × Journal :=
  if path = "" then (default id, [])
  else match load d id path with
    | .ok ind => (ind, [])
    | .error e =>
      (default id, [⟨.warn, "falling back to default strategy", [("path", .text path), ("error", .text e.message)]⟩])

end Individual

inductive WriteError where
  | directory (e : FileError)
  | program (path : String) (e : FileError)
  deriving DecidableEq, Repr

def WriteError.message : WriteError → String
  | .directory e => e.message
  | .program path e => s!"write {path}: {e.message}"

def WriteError.cause : WriteError → FileError
  | .directory e => e
  | .program _ e => e

/-- Writes programs into a directory, under the numbers from `number` on. -/
def writePrograms (dir : String) : (number : Nat) → List Expr → ExceptT WriteError (StateM Disk) Unit
  | _, [] => pure ()
  | number, e :: rest => do
    let path := Disk.join dir s!"{number}.sexp"
    (Disk.writeFile path e.pretty.toUTF8).adapt (.program path)
    writePrograms dir (number + 1) rest

/-- Writes the programs of an individual into a directory, as `1.sexp`, `2.sexp` and so on. -/
def Individual.write (ind : Individual) (dir : String) : ExceptT WriteError (StateM Disk) Unit := do
  (Disk.mkdirAll dir).adapt .directory
  writePrograms dir 1 ind.programs

end Forager.Breeding
