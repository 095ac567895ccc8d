import Forager.Command.Flag

/-!
# Actions

The command line names one action. Flags may stand before the name, so the name is the first argument that is neither a
flag nor the value of one. A name that no action has is answered with the names that come close to it.
-/

namespace Forager.Command

set_option autoImplicit false

inductive Action where
  | evolve
  | play
  | validate
  | runs
  | copyRun
  deriving DecidableEq, Repr

namespace Action

def all : List Action := [.evolve, .play, .validate, .runs, .copyRun]

def name : Action → String
  | .evolve => "evolve"
  | .play => "play"
  | .validate => "validate"
  | .runs => "runs"
  | .copyRun => "export"

def ofName? (word : String) : Option Action := all.find? (·.name == word)

end Action

def flagsOfKind (kind : FlagKind) (names : List String) : List Flag := names.map fun name => ⟨name, kind, none⟩

def commonFlags : List Flag := ⟨"verbose", .toggle, some 'v'⟩ :: flagsOfKind .text ["store", "db-path", "artifacts"]

def helpFlag : Flag := ⟨"help", .toggle, some 'h'⟩

def Action.ownFlags : Action → List Flag
  | .evolve =>
    flagsOfKind .text ["baseline", "progenitor", "out", "selection", "config", "metrics-addr"] ++
      flagsOfKind .integer ["pop", "repeats", "gens", "seed", "workers", "tournament-size", "max-steps", "treats"] ++
      flagsOfKind .real ["rate"]
  | .play =>
    flagsOfKind .text ["team", "opponent"] ++ flagsOfKind .integer ["repeats", "seed", "max-steps", "treats"]
  | .validate => []
  | .runs => flagsOfKind .integer ["limit"] ++ flagsOfKind .text ["run"] ++ flagsOfKind .toggle ["best"]
  | .copyRun => flagsOfKind .text ["run", "out"]

/-- The flags of an action, or those of none. -/
def flagsOf (action : Option Action) : List Flag :=
  (match action with | some t => t.ownFlags | none => []) ++ commonFlags ++ [helpFlag]

/-! ## Finding the action -/

/-- Whether the argument after this one may be the value of a flag. Without knowledge of a flag one has to assume so. -/
def takesNext (argument : String) : Bool :=
  match argument.toList with
  | '-' :: '-' :: name =>
    !name.contains '=' && !(commonFlags.any fun f => f.kind = .toggle && f.name == String.ofList name)
  | ['-', c] => c ≠ '=' && c.toNat < 0x80 && !(commonFlags.any fun f => f.letter == some c)
  | _ => false

/-- Whether an argument looks like a flag. -/
def looksLikeFlag (argument : String) : Bool := argument.toList.head? == some '-'

/-- The arguments that are neither flags nor values of flags. The search ends before a flag whose value would be the
last argument. -/
def words : List String → List String
  | [] => []
  | argument :: rest =>
    if argument = "--" then []
    else if takesNext argument then
      match rest with
      | _ :: next :: more => words (next :: more)
      | _ => []
    else if argument ≠ "" && !looksLikeFlag argument then argument :: words rest
    else words rest

/-- The arguments without the first one that is this word and not the value of a flag. -/
def without (word : String) : List String → List String
  | [] => []
  | argument :: rest =>
    if argument = "--" then argument :: rest
    else if takesNext argument then
      match rest with
      | value :: more => argument :: value :: without word more
      | [] => [argument]
    else if argument = word && !looksLikeFlag argument then rest
    else argument :: without word rest

/-! ## Names that come close -/

/-- The next row of edit distances: `above` is the distance diagonally above the first of `row`, and `left` the one
before it in the new row. -/
def nextRow (a : UInt8) : (bs : List UInt8) → (above left : Nat) → (row : List Nat) → List Nat
  | b :: bs, above, left, upper :: row =>
    let d := min (min (upper + 1) (left + 1)) (if a = b then above else above + 1)
    d :: nextRow a bs upper d row
  | _, _, _, _ => []

/-- How many bytes have to be changed, left out or put in to turn one text into the other. -/
def editDistance (s t : List UInt8) : Nat :=
  let first := List.range (t.length + 1)
  let last := s.foldl (fun row a =>
    match row with
    | above :: rest => (above + 1) :: nextRow a t above (above + 1) rest
    | [] => []) first
  last.getLastD 0

def small (word : String) : List UInt8 := Text.bytes (String.ofList (word.toList.map Char.toLower))

def suggestible : List String := Action.all.map Action.name ++ ["completion"]

/-- The names that differ from a word in two places at most, or begin with it. -/
def suggestions (word : String) : List String :=
  suggestible.filter fun name => editDistance (small word) (small name) ≤ 2 || (small word).isPrefixOf (small name)

end Forager.Command
