import Forager.Disk.Path
import Forager.Text.Utf8

/-!
# File trees

A file tree holds directories, files and links at places. A link leads to a file outside the tree: reading and writing
go through it, and only the list of a directory tells it from a file. The working directory is always there. Operations
that fail leave what they did before; opening a file for writing empties it at once.
-/

namespace Forager

set_option autoImplicit false

namespace Disk

/-- What a place leads to. -/
inductive Entry where
  | directory
  | file (bytes : ByteArray)

/-- What stands at a place. A link has the bytes of the file that it leads to. -/
inductive Item where
  | directory
  | file (bytes : ByteArray)
  | link (bytes : ByteArray)

/-- What is found by way of the item. -/
def Item.entry : Item → Entry
  | .directory => .directory
  | .file bytes | .link bytes => .file bytes

/-- The item itself, where there was none. -/
def Entry.item : Entry → Item
  | .directory => .directory
  | .file bytes => .file bytes

/-- What stands there after an entry was put in the place of the item: a file is written through a link. -/
def Item.replace (e : Entry) : Item → Item
  | .link _ => match e with
    | .directory => .directory
    | .file bytes => .link bytes
  | _ => e.item

end Disk

structure Disk where
  entries : List (Disk.Place × Disk.Item)

namespace Disk

inductive Call where
  | stat
  | opening
  | read
  | mkdir
  deriving DecidableEq, Repr

def Call.name : Call → String
  | .stat => "stat"
  | .opening => "open"
  | .read => "read"
  | .mkdir => "mkdir"

inductive Reason where
  | missing
  | isDirectory
  | notDirectory
  deriving DecidableEq, Repr

def Reason.message : Reason → String
  | .missing => "no such file or directory"
  | .isDirectory => "is a directory"
  | .notDirectory => "not a directory"

structure FileError where
  call : Call
  path : String
  reason : Reason
  deriving DecidableEq, Repr

def FileError.message (e : FileError) : String := s!"{e.call.name} {e.path}: {e.reason.message}"

def empty : Disk := ⟨[]⟩

def at? (d : Disk) (p : Place) : Option Entry :=
  if p.isTop then some .directory else (d.entries.lookup p).map Item.entry

def put (d : Disk) (p : Place) (e : Entry) : Disk :=
  ⟨if d.entries.any (·.1 == p) then d.entries.map fun x => if x.1 == p then (p, x.2.replace e) else x
    else d.entries ++ [(p, e.item)]⟩

/-- The place that names lead to from a place, if there is a directory wherever the way goes on. -/
def follow (d : Disk) : Place → List String → Except Reason Place
  | p, [] => .ok p
  | p, name :: rest =>
    match d.at? p with
    | none => .error .missing
    | some (.file _) => .error .notDirectory
    | some .directory => follow d (p.follow name) rest

/-- The place that a path leads to. The empty path leads nowhere. -/
def locate (d : Disk) (path : String) : Except Reason Place :=
  if path = "" then .error .missing else d.follow (Place.start path) (namesOf path)

def find (d : Disk) (path : String) : Except Reason Entry := do
  match d.at? (← d.locate path) with
  | some e => .ok e
  | none => .error .missing

/-- What a path leads to, as an inquiry. -/
def stat (d : Disk) (path : String) : Except FileError Entry := (d.find path).mapError fun r => ⟨.stat, path, r⟩

def readFile (d : Disk) (path : String) : Except FileError ByteArray :=
  match d.find path with
  | .error reason => .error ⟨.opening, path, reason⟩
  | .ok .directory => .error ⟨.read, path, .isDirectory⟩
  | .ok (.file bytes) => .ok bytes

/-- The bytes of a file, if it is there. -/
def readFile? (d : Disk) (path : String) : Except FileError (Option ByteArray) :=
  match d.readFile path with
  | .ok bytes => .ok (some bytes)
  | .error e => if e.reason = .missing then .ok none else .error e

/-- What stands in a directory, by name. -/
def list (d : Disk) (dir : Place) : List (String × Item) :=
  d.entries.filterMap fun (p, e) =>
    match p.names with
    | name :: above => if dir = { p with names := above } then some (name, e) else none
    | [] => none

/-- A computation on a file tree, which may fail. -/
abbrev Does := ExceptT FileError (StateM Disk)

/-- Opens a file for writing, which makes it if it is not there and empties it. -/
def create (path : String) : Does Place := do
  let d ← get
  match d.locate path with
  | .error reason => throw ⟨.opening, path, reason⟩
  | .ok p =>
    match d.at? p with
    | some .directory => throw ⟨.opening, path, .isDirectory⟩
    | _ =>
      set (d.put p (.file .empty))
      return p

def writeFile (path : String) (bytes : ByteArray) : Does Unit := do
  let p ← create path
  modify fun d => d.put p (.file bytes)

/-- Makes the directory at the end of each path, if it is not there. -/
def mkdirs : List String → Does Unit
  | [] => pure ()
  | path :: rest => do
    let d ← get
    match d.locate path with
    | .error reason => throw ⟨.mkdir, path, reason⟩
    | .ok p =>
      match d.at? p with
      | some .directory => mkdirs rest
      | some (.file _) => throw ⟨.mkdir, path, .notDirectory⟩
      | none =>
        set (d.put p .directory)
        mkdirs rest

/-- Makes a directory and all directories above it. -/
def mkdirAll (path : String) : Does Unit :=
  if path = "" then throw ⟨.mkdir, path, .missing⟩ else mkdirs (stages path)

/-- Writes a file and makes the directories above it. -/
def install (path : String) (bytes : ByteArray) : Does Unit := do
  mkdirAll (join path "..")
  writeFile path bytes

/-- Puts a link to a file with these bytes at a path and makes the directories above it. -/
def installLink (path : String) (bytes : ByteArray) : Does Unit := do
  install path bytes
  modify fun d => ⟨d.entries.map fun x => if x.1 = Place.ofPath path then (x.1, .link bytes) else x⟩

/-- Copies a file. The destination is emptied before the source is read. -/
def copyFile (source destination : String) : Does Unit := do
  match (← get).find source with
  | .error reason => throw ⟨.opening, source, reason⟩
  | .ok _ =>
    let p ← create destination
    match (← get).readFile source with
    | .error e => throw e
    | .ok bytes => modify fun d => d.put p (.file bytes)

/-! ## Whole trees -/

/-- The order of texts by their bytes. -/
def textLess (a b : String) : Bool := decide (Text.bytes a < Text.bytes b)

/-- Whether a place is inside a directory, at any depth. -/
def Place.inside (dir p : Place) : Bool :=
  dir.rooted == p.rooted && dir.names.length < p.names.length && dir.names.isSuffixOf p.names &&
    (p.names.take (p.names.length - dir.names.length)).all (· ≠ "..")

/-- All that a path leads to: directories with a slash at the end and files with their texts, in the order of their
paths. -/
def listing (d : Disk) (path : String) : List (String × String) :=
  match d.locate path, d.find path with
  | .ok p, .ok (.file bytes) => [(p.path, Text.decode bytes)]
  | .ok dir, .ok .directory =>
    let lines := (d.entries.filter fun x => dir.inside x.1).map fun (p, e) => match e.entry with
      | .directory => (p.path ++ "/", "")
      | .file bytes => (p.path, Text.decode bytes)
    ((dir.path ++ "/", "") :: lines).mergeSort fun a b => !textLess b.1 a.1
  | _, _ => []

end Disk

end Forager
