import Forager.Program.Build
import Forager.Chance.Source

/-!
# Mutation

A mutation walks over an expression and changes nodes at random. Placeholders grow into small expressions half of the
time; every other change happens with the probability `rate` at each node. The order of the draws is part of the
behaviour, since a seed has to give the same mutant every time.
-/

namespace Forager.Breeding

set_option autoImplicit false

open Program
open Chance (Draw)

def logicalGrowth : List Kind :=
  [.branch, .all, .any, .negation] ++ Comparison.all.map .comparison ++ [.setSpeed, .isCarrying, .pickUp]

def realGrowth : List Kind := [.getRange, .getMidpoint, .getWidth]

/-- The logical placeholder. -/
def noop : Expr := .leaf .noop

/-- A new node of this kind, with placeholders for arguments. -/
def grow (kind : Kind) : Expr :=
  .node (.blank kind) <|
    match kind with
    | .branch | .all | .any => [noop, noop]
    | .negation => [noop]
    | .comparison _ => [.leaf .valueNoop, .leaf (.literal 0)]
    | _ => []

/-- A number near `x`: zero moves by up to a tenth, any other number is scaled by a factor from one half up to below
three halves. -/
def jitter (x : Float) : Draw Float := do
  let u ← Chance.unit
  return if x == 0 then u * 0.2 - 0.1 else x * (0.5 + u)

/-- A mutation in progress. There is none where a node lacks an argument that it needs. -/
abbrev Mutating := OptionT Draw

/-- A draw in the course of a mutation. -/
def drawn {α : Type} (d : Draw α) : Mutating α := OptionT.lift d

def happens (probability : Float) : Mutating Bool := do
  let u ← drawn Chance.unit
  return u < probability

/-- The place of the argument that a sequence of `count` loses, if it loses one. -/
def dropping (rate : Float) (count : Nat) : Mutating (Option Nat) := do
  if (← happens rate) && count ≠ 0 then return some (← drawn (Chance.below count)) else return none

mutual

/-- A mutant of an expression. A sequence may lose one of its arguments. -/
def mutate (rate : Float) : Expr → Mutating Expr
  | .node .noop args => do
    if ← happens 0.5 then return grow (← drawn (Chance.choose .noop logicalGrowth)) else return .node .noop args
  | .node .valueNoop args => do
    if ← happens 0.5 then return grow (← drawn (Chance.choose .valueNoop realGrowth)) else return .node .valueNoop args
  | .node (.literal x) args => do
    if ← happens rate then return .node (.literal (← drawn (jitter x))) args else return .node (.literal x) args
  | .node .step args => do
    let dropped ← dropping rate args.length
    return .node .step (← mutateAll rate dropped args)
  | .node .all args => do
    let dropped ← dropping rate args.length
    return .node .all (← mutateAll rate dropped args)
  | .node .any args => do
    let dropped ← dropping rate args.length
    return .node .any (← mutateAll rate dropped args)
  | .node .branch args => mutateBranch rate args
  | .node .negation args => do
    if ← happens rate then mutateFirst rate args
    else return .node .negation [← mutateFirst rate args]
  | .node (.comparison c) args => do
    let c ← if ← happens rate then drawn (Chance.choose c Comparison.all) else pure c
    return .node (.comparison c) (← mutateTwo rate args)
  | .node (.getRange sensor) args => do
    if ← happens rate then return .node (.getRange (← drawn (Chance.below sensorCount))) args
    else return .node (.getRange sensor) args
  | .node (.setSpeed left right) args => do
    if ← happens rate then
      let l ← drawn (jitter left)
      let r ← drawn (jitter right)
      return .node (.setSpeed l r) args
    else return .node (.setSpeed left right) args
  | .node (.inState state) args => do
    if ← happens rate then return .node (.inState (← drawn (Chance.choose state State.all))) args
    else return .node (.inState state) args
  | .node op args => return .node op args

/-- Mutants of expressions in order, without the one at place `dropped`. -/
def mutateAll (rate : Float) : (dropped : Option Nat) → List Expr → Mutating (List Expr)
  | _, [] => return []
  | some 0, _ :: rest => mutateAll rate none rest
  | some (k + 1), e :: rest => do
    let e ← mutate rate e
    let rest ← mutateAll rate (some k) rest
    return e :: rest
  | none, e :: rest => do
    let e ← mutate rate e
    let rest ← mutateAll rate none rest
    return e :: rest

/-- A mutant of the first of some arguments. -/
def mutateFirst (rate : Float) : List Expr → Mutating Expr
  | [] => failure
  | e :: _ => mutate rate e

/-- Mutants of the first two of some arguments. -/
def mutateTwo (rate : Float) : List Expr → Mutating (List Expr)
  | a :: b :: _ => do
    let a ← mutate rate a
    let b ← mutate rate b
    return [a, b]
  | _ => failure

/-- A mutant of a choice. When it changes, either its branches change places, the alternative being mutated first, or
the alternative goes or comes. -/
def mutateBranch (rate : Float) : List Expr → Mutating Expr
  | [] => failure
  | condition :: rest => do
    let condition ← mutate rate condition
    if ← happens rate then
      if ← happens 0.5 then
        match rest with
        | [consequent, alternative] =>
          let alternative ← mutate rate alternative
          return .node .branch [condition, alternative, ← mutate rate consequent]
        | consequent :: _ => return .node .branch [condition, noop, ← mutate rate consequent]
        | [] => failure
      else
        match rest with
        | [consequent, _] => return .node .branch [condition, ← mutate rate consequent]
        | consequent :: _ => return .node .branch [condition, ← mutate rate consequent, noop]
        | [] => failure
    else
      match rest with
      | [consequent, alternative] =>
        let consequent ← mutate rate consequent
        return .node .branch [condition, consequent, ← mutate rate alternative]
      | consequent :: _ => return .node .branch [condition, ← mutate rate consequent]
      | [] => failure

end

end Forager.Breeding
