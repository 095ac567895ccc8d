/-!
# Paths

Paths are texts with slashes. `clean` gives the shortest path of the same meaning and `join` puts a name below a path.
-/

namespace Forager.Disk

set_option autoImplicit false

/-- The parts of a text between slashes. -/
def splitSlash : List Char → List (List Char)
  | [] => [[]]
  | c :: rest =>
    match splitSlash rest with
    | part :: more => if c = '/' then [] :: part :: more else (c :: part) :: more
    | [] => [[c]]

def namesOf (path : String) : List String := (splitSlash path.toList).map String.ofList

/-- Whether a path begins at the root of all files. -/
def isRooted (path : String) : Bool := path.toList.head? == some '/'

/-- A place in a file tree: the names that lead there, in reverse. The names `..` lead out of the working directory,
unless the place is counted from the root of all files. -/
structure Place where
  rooted : Bool
  names : List String
  deriving DecidableEq, Repr

namespace Place

def start (path : String) : Place := ⟨isRooted path, []⟩

/-- Goes on from a place by one name. -/
def follow (p : Place) (name : String) : Place :=
  if name = "" || name = "." then p
  else if name = ".." then
    match p.names with
    | [] => if p.rooted then p else { p with names := [".."] }
    | top :: above => if top = ".." then { p with names := ".." :: p.names } else { p with names := above }
  else { p with names := name :: p.names }

def ofPath (path : String) : Place := (namesOf path).foldl follow (start path)

def path (p : Place) : String :=
  let body := String.intercalate "/" p.names.reverse
  if p.rooted then "/" ++ body else if p.names.isEmpty then "." else body

/-- Whether a place is above all that a file tree holds, and so always there. -/
def isTop (p : Place) : Bool := p.names.all (· == "..")

end Place

/-- The shortest path of the same meaning. -/
def clean (path : String) : String := (Place.ofPath path).path

/-- The path of a name below a path. Empty parts do not count. -/
def join (path name : String) : String :=
  if path = "" then (if name = "" then "" else clean name)
  else if name = "" then clean path
  else clean (path ++ "/" ++ name)

/-- The path up to each of its names in turn. -/
def stages (path : String) : List String :=
  let parts := splitSlash (path.toList.reverse.dropWhile (· == '/')).reverse
  let heads := (List.range parts.length).map fun i => parts.take (i + 1)
  (heads.map fun head => String.ofList (head.intersperse ['/']).flatten).filter (· ≠ "")

end Forager.Disk
