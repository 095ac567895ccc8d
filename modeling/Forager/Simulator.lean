import Forager.Program.Eval
import Forager.Journal

/-!
# Simulators

A simulator scores a team of programs in a match. It may look at a deadline while it runs, and at the number of
matches it has played before; the matches of the forage arena depend on the match alone.
-/

namespace Forager

set_option autoImplicit false

open Program (Expr EvalError)

/-- When a run is called off: after so many looks at the deadline, or never. -/
abbrev Deadline := Option Nat

namespace Deadline

/-- A run that is never called off. -/
def never : Deadline := none

/-- A run that was called off before it began. -/
def passed : Deadline := some 0

/-- Looks at the deadline: whether the run is called off, and the deadline for the next look. -/
def look : Deadline → Bool × Deadline
  | none => (false, none)
  | some 0 => (true, some 0)
  | some (n + 1) => (false, some n)

end Deadline

/-- Two teams of programs and the seed of chance. -/
structure Match where
  team : List Expr
  opponent : List Expr
  seed : Int64

/-- What happened in a match that a program error may have cut short. -/
structure Report where
  steps : Nat
  score : Nat
  opponentScore : Nat
  penalty : Float

structure Outcome where
  fitness : Float
  /-- The complaint about the program that ended the match. -/
  abortReason : Option String
  /-- Whether the match was cut short. -/
  aborted : Bool
  report : Option Report

inductive MatchError where
  | noPrograms
  | noRoom (treats : Int)
  | canceled
  | program (e : EvalError)
  | failure (message : String)
  deriving DecidableEq, Repr

def canceledMessage : String := "context canceled"

def MatchError.message : MatchError → String
  | .noPrograms => "team has no programs"
  | .noRoom treats => s!"cannot place {treats} treats without overlap"
  | .canceled => canceledMessage
  | .program (.category e) => e.message
  | .program .missingArgument => "missing argument"
  | .failure message => message

structure Reply where
  result : Except MatchError Outcome
  deadline : Deadline
  journal : Journal := []

/-- A way to play matches. `play` is given the number of matches played before. -/
structure Simulator where
  name : String
  play : (before : Nat) → Deadline → Match → Reply

/-- The simulator that plays the same matches and reports nothing. -/
def Simulator.quiet (s : Simulator) : Simulator :=
  { s with play := fun before deadline m => { s.play before deadline m with journal := [] } }

/-- Whether a simulator's replies depend on the match and the deadline alone. -/
def Simulator.Stateless (s : Simulator) : Prop := ∀ m n d x, s.play m d x = s.play n d x

end Forager
