import Forager.Program.Kind
import Forager.Number.Layout
import Forager.Sexp.Basic

/-!
# Expressions

An expression is an operation applied to a list of expressions. The operation carries the numbers, the sensor or the
state that the expression mentions. How many arguments an operation takes, and of which category, is a matter of
`Program.Build` and `Program.Check`; here every combination exists.
-/

namespace Forager.Program

set_option autoImplicit false

/-- An operation with what it mentions. -/
inductive Op where
  | literal (value : Float)
  | noop
  | valueNoop
  | step
  | branch
  | all
  | any
  | negation
  | comparison (c : Comparison)
  | getRange (sensor : Int)
  | getMidpoint
  | getWidth
  | setSpeed (left right : Float)
  | inState (state : State)
  | pickUp
  | isCarrying

def Op.kind : Op → Kind
  | .literal _ => .literal
  | .noop => .noop
  | .valueNoop => .valueNoop
  | .step => .step
  | .branch => .branch
  | .all => .all
  | .any => .any
  | .negation => .negation
  | .comparison c => .comparison c
  | .getRange _ => .getRange
  | .getMidpoint => .getMidpoint
  | .getWidth => .getWidth
  | .setSpeed _ _ => .setSpeed
  | .inState _ => .inState
  | .pickUp => .pickUp
  | .isCarrying => .isCarrying

/-- The operation of a kind that mentions zeros and the first state. -/
def Op.blank : Kind → Op
  | .literal => .literal 0
  | .noop => .noop
  | .valueNoop => .valueNoop
  | .step => .step
  | .branch => .branch
  | .all => .all
  | .any => .any
  | .negation => .negation
  | .comparison c => .comparison c
  | .getRange => .getRange 0
  | .getMidpoint => .getMidpoint
  | .getWidth => .getWidth
  | .setSpeed => .setSpeed 0 0
  | .inState => .inState .search
  | .pickUp => .pickUp
  | .isCarrying => .isCarrying

inductive Expr where
  | node (op : Op) (args : List Expr)

namespace Expr

def op : Expr → Op
  | node op _ => op

def args : Expr → List Expr
  | node _ args => args

def kind (e : Expr) : Kind := e.op.kind

/-- The word of the root, nothing for a literal. -/
def word (e : Expr) : String := e.kind.word

def category (e : Expr) : Category := e.kind.category

def leaf (op : Op) : Expr := node op []

/-- The program that does nothing. -/
def idle : Expr := leaf .step

instance : Inhabited Expr := ⟨idle⟩

mutual

def size : Expr → Nat
  | node _ args => sizeAll args + 1

def sizeAll : List Expr → Nat
  | [] => 0
  | e :: rest => size e + sizeAll rest

end

mutual

/-- The number of nodes on the longest way down. -/
def depth : Expr → Nat
  | node _ args => depthAll args + 1

def depthAll : List Expr → Nat
  | [] => 0
  | e :: rest => max (depth e) (depthAll rest)

end

mutual

/-- The operations in preorder. -/
def ops : Expr → List Op
  | node op args => op :: opsAll args

def opsAll : List Expr → List Op
  | [] => []
  | e :: rest => ops e ++ opsAll rest

end

/-- The advice on the operations that are going out of use, each given once. -/
def deprecations (e : Expr) : List String :=
  if e.ops.any (fun op => op.kind == .isCarrying) then
    [s!"{Kind.isCarrying.word} has been deprecated, use {Kind.inState.word} {State.carry.name}"]
  else []

end Expr

/-! ## Text -/

/-- The text of a number, which always looks like a real. -/
def realText (x : Float) : String :=
  let text := Number.compact x
  if text.toList.any fun c => c = '.' || c = 'e' || c = 'n' || c = 'N' then text else text ++ ".0"

/-- The name under which an operation appears in complaints. -/
def Op.label : Op → String
  | .literal value => realText value
  | op => op.kind.word

namespace Expr

mutual

def toSexp : Expr → Sexp
  | node (.literal value) _ => .atom (realText value)
  | node (.getRange sensor) _ => .list [.atom Kind.getRange.word, .atom (toString sensor)]
  | node (.setSpeed left right) _ =>
    .list [.atom Kind.setSpeed.word, .atom (realText left), .atom (realText right)]
  | node (.inState state) _ => .list [.atom Kind.inState.word, .atom state.name]
  | node op args => .list (.atom op.kind.word :: toSexps args)

def toSexps : List Expr → List Sexp
  | [] => []
  | e :: rest => toSexp e :: toSexps rest

end

def print (e : Expr) : String := e.toSexp.print

def pretty (e : Expr) : String := e.toSexp.pretty

end Expr

end Forager.Program
