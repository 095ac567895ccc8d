import Forager.Text.Fold

/-!
# Vocabulary of the strategy language

The kinds of expressions, the categories of values they produce, and the behavioural states of a robot. Each of the
three is numbered, and a number outside the range has a name of its own.
-/

namespace Forager.Program

set_option autoImplicit false

inductive Category where
  | boolean
  | real
  /-- An effect only, which counts as success where a truth value is wanted. -/
  | effect
  deriving DecidableEq, Repr

namespace Category

def name : Category → String
  | .boolean => "boolean"
  | .real => "real"
  | .effect => "none"

/-- Whether such an expression may stand where a truth value is wanted. -/
def isLogical : Category → Bool
  | .boolean | .effect => true
  | .real => false

def all : List Category := [.boolean, .real, .effect]

def nameOf (code : Nat) : String :=
  match all[code]? with
  | some c => c.name
  | none => s!"category({code})"

/-- Whether a number is that of a category that may stand where a truth value is wanted. -/
def isLogicalCode (code : Nat) : Bool := (all[code]?.map isLogical).getD false

end Category

inductive Comparison where
  | eq
  | lt
  | lte
  | gt
  | gte
  deriving DecidableEq, Repr

namespace Comparison

/-- All comparisons, in the order in which mutation draws them. -/
def all : List Comparison := [.eq, .lt, .lte, .gt, .gte]

def name : Comparison → String
  | .eq => "eq"
  | .lt => "lt"
  | .lte => "lte"
  | .gt => "gt"
  | .gte => "gte"

def holds : Comparison → Float → Float → Bool
  | .eq, x, y => x == y
  | .lt, x, y => x < y
  | .lte, x, y => x ≤ y
  | .gt, x, y => x > y
  | .gte, x, y => x ≥ y

end Comparison

inductive Kind where
  | literal
  | noop
  | valueNoop
  | step
  | branch
  | all
  | any
  | negation
  | comparison (c : Comparison)
  | getRange
  | getMidpoint
  | getWidth
  | setSpeed
  | inState
  | pickUp
  | isCarrying
  deriving DecidableEq, Repr

namespace Kind

/-- Every kind, in the order of their numbers. -/
def everyKind : List Kind :=
  [.literal, .noop, .valueNoop, .step, .branch, .all, .any, .negation] ++ Comparison.all.map .comparison ++
    [.getRange, .getMidpoint, .getWidth, .setSpeed, .inState, .pickUp, .isCarrying]

/-- The word that leads an expression of this kind, nothing for a literal. -/
def word : Kind → String
  | .literal => ""
  | .noop => "noop"
  | .valueNoop => "vnoop"
  | .step => "step"
  | .branch => "if"
  | .all => "and"
  | .any => "or"
  | .negation => "not"
  | .comparison c => c.name
  | .getRange => "getRange"
  | .getMidpoint => "getMidpoint"
  | .getWidth => "getWidth"
  | .setSpeed => "setSpeed"
  | .inState => "inState"
  | .pickUp => "pickUp"
  | .isCarrying => "isCarrying"

def ofWord? (word : String) : Option Kind := everyKind.tail.find? (·.word == word)

def category : Kind → Category
  | .literal | .valueNoop | .getRange | .getMidpoint | .getWidth => .real
  | .setSpeed => .effect
  | _ => .boolean

def isComparison : Kind → Bool
  | .comparison _ => true
  | _ => false

/-- Whether the kind holds any number of logical expressions. -/
def isSequence : Kind → Bool
  | .step | .all | .any => true
  | _ => false

def code (k : Kind) : Nat := everyKind.idxOf k

def nameOf (code : Nat) : String :=
  match everyKind[code]? with
  | some .literal => "literal"
  | some k => k.word
  | none => s!"kind({code})"

/-- What expressions produce whose kind has this number. -/
def categoryOf (code : Nat) : Category := (everyKind[code]?.map category).getD .effect

end Kind

inductive State where
  | search
  | carry
  | backup
  | uturn
  deriving DecidableEq, Repr

namespace State

def all : List State := [.search, .carry, .backup, .uturn]

def name : State → String
  | .search => "search"
  | .carry => "carry"
  | .backup => "backup"
  | .uturn => "uturn"

/-- The state with this name, in any case. -/
def ofName? (name : String) : Option State := all.find? fun s => Text.sameFolded name s.name

def unknownMessage (name : String) : String := s!"invalid state {name}"

def nameOf (code : Nat) : String :=
  match all[code]? with
  | some s => s.name
  | none => s!"state({code})"

end State

end Forager.Program
