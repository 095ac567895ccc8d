import Forager.Session.Basic
import Forager.Arena.Forage

/-!
# Playing and checking strategies

`play` plays matches between two strategies and reports each of them. `validate` checks a strategy and describes its
programs.
-/

namespace Forager

set_option autoImplicit false

open Breeding (Individual)

structure PlayRequest where
  team : String := ""
  /-- The opponent, which does nothing if it cannot be read or is no valid strategy. -/
  opponent : String := ""
  repeats : Int64 := 0
  seed : Int64 := 0
  arena : Arena.Config := {}

structure MatchReport where
  seed : Int64
  fitness : Float
  score : Nat
  opponentScore : Nat
  steps : Nat
  penalty : Float
  aborted : Bool
  abortReason : String

/-- The matches that were played, with their mean fitness. -/
structure PlayResult where
  fitness : Float
  played : List MatchReport

structure ProgramInfo where
  path : String
  slot : Nat
  pretty : String
  size : Nat
  depth : Nat
  deprecations : List String

def MatchReport.ofOutcome (seed : Int64) (o : Outcome) : MatchReport :=
  let r := o.report.getD ⟨0, 0, 0, 0⟩
  { seed
    fitness := o.fitness
    score := r.score
    opponentScore := r.opponentScore
    steps := r.steps
    penalty := r.penalty
    aborted := o.aborted
    abortReason := o.abortReason.getD "" }

namespace Session

/-- Plays `count` matches from number `r` on. The result is the sum of fitness values and the reports. -/
def playMatches (sim : Simulator) (team opponent : List Program.Expr) (seed : Int64) :
    (count r : Nat) → Deadline → (total : Float) → List MatchReport → Acts (Float × List MatchReport)
  | 0, _, _, total, reports => return (total, reports)
  | count + 1, r, deadline, total, reports => do
    let matchSeed := Chance.derive seed (.ofNat r)
    let reply := sim.play r deadline ⟨team, opponent, matchSeed⟩
    note reply.journal
    let outcome ← settle (.matchFailed r) reply.result
    playMatches sim team opponent seed count (r + 1) reply.deadline (total + outcome.fitness)
      (reports ++ [.ofOutcome matchSeed outcome])

/-- The opponent of a match. One that cannot be read or fails its check is replaced by the one that does nothing. -/
def loadOpponent (path : String) : StateM Session Individual := do
  let (opponent, entries) := Individual.loadOrDefault (← get).env.disk "opponent" path
  note entries
  match firstMisuse 0 opponent.programs with
  | none => return opponent
  | some (slot, e) =>
    note [⟨.warn, "falling back to default strategy",
      [("path", .text path), ("error", .text (categoryMessage slot e))]⟩]
    return .default "opponent"

def play (req : PlayRequest) (deadline : Deadline) : Acts PlayResult := do
  if req.team = "" then throw .noTeam
  let repeats := if req.repeats ≤ 0 then 1 else req.repeats
  let team ← settle (.load "team") (Individual.load (← get).env.disk "team" req.team)
  requireChecked req.team team
  note (deprecations req.team 0 team.programs)
  let opponent ← loadOpponent req.opponent
  let (total, reports) ← playMatches (Arena.forage req.arena) team.programs opponent.programs req.seed
    repeats.toInt.toNat 0 deadline 0 []
  return ⟨total / Float.ofInt repeats.toInt, reports⟩

def describe (path : String) : (slot : Nat) → List Program.Expr → List ProgramInfo
  | _, [] => []
  | slot, e :: rest => ⟨path, slot + 1, e.pretty, e.size, e.depth, e.deprecations⟩ :: describe path (slot + 1) rest

/-- Checks the strategy at a path and describes its programs. -/
def validate (path : String) : Acts (List ProgramInfo) := do
  let ind ← settle .strategy (Individual.load (← get).env.disk path path)
  requireChecked path ind
  note (deprecations path 0 ind.programs)
  return describe path 0 ind.programs

end Session

end Forager
