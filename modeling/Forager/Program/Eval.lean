import Forager.Program.Check

/-!
# Running expressions

An expression runs on an agent: it reads the agent's sensors and commands its motors. Truth values come from `eval`,
reals from `value`. What an agent did before an error stays done.
-/

namespace Forager.Program

set_option autoImplicit false

/-- A robot as a program sees it, with states in `σ`. -/
structure Agent (σ : Type) where
  range : Int → StateM σ Float
  midpoint : StateM σ Float
  width : StateM σ Float
  inState : State → StateM σ Bool
  pickUp : StateM σ Bool
  setSpeed : Float → Float → StateM σ Unit
  isCarrying : StateM σ Bool

inductive EvalError where
  | category (e : CategoryError)
  /-- The operation lacks an argument that it needs. -/
  | missingArgument
  deriving DecidableEq, Repr

/-- A run on an agent, which may end in an error. -/
abbrev Run (σ α : Type) := ExceptT EvalError (StateM σ) α

section

variable {σ : Type} (agent : Agent σ)

def value (e : Expr) : Run σ Float :=
  match e.op with
  | .literal x => pure x
  | .valueNoop => pure 0
  | .getRange sensor => agent.range sensor
  | .getMidpoint => agent.midpoint
  | .getWidth => agent.width
  | _ => throw (.category (e.misused .real))

/-- The value of an argument that may be missing. -/
def valueOf (e? : Option Expr) : Run σ Float :=
  match e? with
  | some e => value agent e
  | none => throw .missingArgument

mutual

/-- Runs a logical expression and tells whether it succeeded. -/
def eval : Expr → Run σ Bool
  | .node .noop _ => pure true
  | .node .step args => evalStep true args
  | .node .branch args => evalBranch args
  | .node .all args => evalAll args
  | .node .any args => evalAny args
  | .node .negation args => evalNot args
  | .node (.comparison c) args => do
    let x ← valueOf agent args[0]?
    let y ← valueOf agent args[1]?
    return c.holds x y
  | .node (.setSpeed left right) _ => do
    agent.setSpeed left right
    return true
  | .node (.inState state) _ => agent.inState state
  | .node .pickUp _ => agent.pickUp
  | .node .isCarrying _ => agent.isCarrying
  | .node op args => throw (.category ((Expr.node op args).misused .boolean))

/-- Runs every argument, also after one that did not succeed. -/
def evalStep (success : Bool) : List Expr → Run σ Bool
  | [] => pure success
  | e :: rest => do
    let ok ← eval e
    evalStep (ok && success) rest

/-- Runs arguments up to the first that does not succeed. -/
def evalAll : List Expr → Run σ Bool
  | [] => pure true
  | e :: rest => do if ← eval e then evalAll rest else return false

/-- Runs arguments up to the first that succeeds. -/
def evalAny : List Expr → Run σ Bool
  | [] => pure false
  | e :: rest => do if ← eval e then return true else evalAny rest

/-- Runs the condition and then the branch it selects. Without an alternative the expression does not succeed. -/
def evalBranch : List Expr → Run σ Bool
  | [] => throw .missingArgument
  | condition :: rest => do
    if ← eval condition then
      match rest with
      | consequent :: _ => eval consequent
      | [] => throw .missingArgument
    else
      match rest with
      | [_, alternative] => eval alternative
      | _ => return false

/-- Runs the argument and turns its success around. -/
def evalNot : List Expr → Run σ Bool
  | [] => throw .missingArgument
  | e :: _ => do return !(← eval e)

end

end

end Forager.Program
