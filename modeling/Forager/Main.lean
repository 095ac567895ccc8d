import Forager.Command.Help
import Forager.Json.Basic
import Std.Time.DateTime

/-!
# The program

`main` brings the files that a command mentions into a file tree, runs the command on it, and puts what has changed
back. Everything that is decided is decided in `Command.run`.
-/

namespace Forager.Outside

set_option autoImplicit false

/-- How deep directories may be nested. -/
def depthLimit : Nat := 1000

/-- Brings a file or a directory into a file tree. -/
def bring : (depth : Nat) → Disk → String → IO Disk
  | 0, d, _ => return d
  | depth + 1, d, path => do
    let place := (← IO.currentDir) / path
    let does (m : Disk.Does Unit) : Disk := (m.run.run d).2
    if ← place.isDir then
      let names := (← place.readDir).toList.map (·.fileName)
      names.foldlM (fun d name => bring depth d (Disk.join path name)) (does (Disk.mkdirAll path))
    else if ← place.pathExists then
      let bytes ← IO.FS.readBinFile place
      let isLink := (← place.symlinkMetadata).type == .symlink
      return does (if isLink then Disk.installLink path bytes else Disk.install path bytes)
    else return d

/-- Brings files and directories into a file tree. -/
def bringAll (paths : List String) (d : Disk) : IO Disk := paths.foldlM (bring depthLimit) d

/-- Puts back what is new or has changed. -/
def putBack (old new : Disk) : IO Unit :=
  for (p, e) in new.entries do
    let place := (← IO.currentDir) / p.path
    match e.entry, old.at? p with
    | .directory, none => IO.FS.createDirAll place
    | .file bytes, some (.file before) => if bytes.data != before.data then IO.FS.writeBinFile place bytes
    | .file bytes, _ => IO.FS.writeBinFile place bytes
    | .directory, some _ => pure ()

def now : IO Timestamp := do
  let seconds := (← Std.Time.Timestamp.now).toSecondsSinceUnixEpoch.val
  return (⟨⟨1970, 1, 1⟩, 0, 0, 0, 0, 0⟩ : Timestamp).addSeconds seconds

/-- A new run id: sixteen random bytes in hexadecimal, marked as such. -/
def newId : IO String := do
  let bytes := (← IO.getRandomBytes 16).toList.mapIdx fun i b =>
    if i = 6 then b % 16 + 64 else if i = 8 then b % 64 + 128 else b
  let digits := bytes.flatMap fun b => Text.hex 2 b.toNat
  let part (start count : Nat) : String := String.ofList ((digits.drop start).take count)
  return "-".intercalate [part 0 8, part 8 4, part 12 4, part 16 4, part 20 12]

def entryLine (e : Journal.Entry) : String := (Json.ofFields (e.texts.map fun (k, v) => (k, Json.ofText v))).print

end Forager.Outside

open Forager Forager.Outside in
def main (arguments : List String) : IO UInt32 := do
  if let some text := Command.helpText? arguments then
    IO.print text
    return 0
  let known ← bringAll (Command.mentionedPaths .empty arguments) .empty
  let disk ← bringAll (Command.mentionedPaths known arguments) known
  let time ← now
  let id ← newId
  let result := Command.run { disk, clock := fun _ => time, ids := fun _ => id } arguments .never
  putBack disk result.env.disk
  IO.print result.stdout
  for entry in result.journal do
    IO.eprintln (entryLine entry)
  if let some e := result.failure then
    IO.eprint (Command.failureText arguments e)
  return result.exitCode.toUInt32
