import Forager.Arena.Robot
import Forager.Simulator

/-!
# Forage matches

Two teams collect treats and carry them to their goals. In each step every program runs once, and then every robot
moves. A match ends when no treat is left, when its time is up, or when a program fails.
-/

namespace Forager.Arena

set_option autoImplicit false

open Program (Expr EvalError)

/-! ## Scoring -/

/-- How well the home team did: the rate at which it collected treats, times how far it was ahead of its opponent,
less a penalty. Against an opponent that collected nothing, the number of treats counts as the lead. -/
def fitness {R : Type} [OfNat R 0] [Mul R] [Div R] [OfInteger R] (own opponent steps treats : Int) (penalty : R) : R :=
  if steps ≤ 0 then 0
  else
    let rate := ofInteger own / ofInteger steps
    let lead := if opponent ≠ 0 then ofInteger own / ofInteger opponent else ofInteger treats
    rate * lead / penalty

/-- The share of the team's mean distance that every robot should cover. -/
def idleShare : Float := 0.1

/-- The penalty for a team with an idle robot. -/
def idlePenalty : Float := 100

def World.distances (w : World) (side : Side) : List Float :=
  (w.robots.filter fun r => r.side = side).map (·.travelled)

/-- The penalty of a team, which is 1 if no robot of it was idle. -/
def World.penalty (w : World) (side : Side) : Float :=
  let distances := w.distances side
  let total := distances.foldl (· + ·) 0
  if total == 0 || distances.length < 2 then 1
  else
    let mean := total / Float.ofNat distances.length
    if distances.any fun d => d < idleShare * mean then idlePenalty else 1

/-- The penalty of the team with this number, 1 if there is none. -/
def World.penaltyOf (w : World) (team : Int) : Float := ((Side.ofNumber? team).map w.penalty).getD 1

/-! ## Steps -/

/-- Runs the programs of the robots from `i` on, up to the first that fails. -/
def World.think : (i : Nat) → List Robot → ExceptT EvalError (StateM World) Unit
  | _, [] => pure ()
  | i, r :: rest => do
    let _ ← Program.eval (agent i) r.program
    World.think (i + 1) rest

/-- What the world does with robot `i` after all programs ran. -/
def World.settle (w : World) (i : Nat) : World := ((w.move i).advance i).deliver i

def World.step : ExceptT EvalError (StateM World) Unit := do
  World.think 0 (← get).robots
  modify fun w => (List.range w.robots.length).foldl World.settle w

/-- Up to `n` steps: the error that ended them, if any, how many were completed, and the world after them. -/
def World.steps (w : World) (n : Nat) : Option EvalError × Nat × World :=
  go n 0 w
where
  /-- Goes on after `done` steps. -/
  go : (n done : Nat) → World → Option EvalError × Nat × World
    | 0, done, w => (none, done, w)
    | n + 1, done, w =>
      match World.step.run w with
      | (.ok (), w) => go n (done + 1) w
      | (.error e, w) => (some e, done, w)

/-- How many steps pass between two looks at the deadline. -/
def lookInterval : Nat := 256

inductive Ending where
  | complete
  | failed (e : EvalError)
  | canceled

/-- A match that has ended, after so many steps. -/
structure Finish where
  ending : Ending
  steps : Nat
  world : World
  deadline : Deadline

/-- Goes on with a match after `steps` steps, for at most `fuel` more. -/
def playFrom : (fuel steps : Nat) → World → Deadline → Finish
  | 0, steps, w, deadline => ⟨.complete, steps, w, deadline⟩
  | fuel + 1, steps, w, deadline =>
    if w.remaining = 0 then ⟨.complete, steps, w, deadline⟩
    else
      let (passed, deadline) := if steps % lookInterval = 0 then deadline.look else (false, deadline)
      if passed then ⟨.canceled, steps, w, deadline⟩
      else match World.step.run w with
        | (.ok (), w) => playFrom fuel (steps + 1) w deadline
        | (.error e, w) => ⟨.failed e, steps + 1, w, deadline⟩

/-! ## Matches -/

/-- The outcome of a match that was not called off. -/
def Finish.outcome (f : Finish) (abortReason : Option String) : Outcome :=
  let penalty := f.world.penalty .home
  let score := f.world.score
  { fitness := fitness score.home score.away f.steps f.world.config.treats penalty
    abortReason
    aborted := abortReason.isSome
    report := some ⟨f.steps, score.home, score.away, penalty⟩ }

/-- The journal entry about a match that a program error ended. -/
def abortEntry (seed : Int64) (steps : Nat) (reason : String) : Journal.Entry :=
  ⟨.debug, "match aborted", [("seed", .integer seed.toInt), ("step", .integer steps), ("error", .text reason)]⟩

/-- Plays a match on an arena of this size, whose values are all positive. -/
def playMatch (c : Config) (deadline : Deadline) (m : Match) : Reply :=
  if m.team.isEmpty then ⟨.error .noPrograms, deadline, []⟩
  else
    let opponent := if m.opponent.isEmpty then [.idle] else m.opponent
    match (World.new c m.team opponent).run (.ofSeed m.seed) with
    | (none, _) => ⟨.error (.noRoom c.treats), deadline, []⟩
    | (some w, _) =>
      let f := playFrom c.maxSteps.toNat 0 w deadline
      match f.ending with
      | .complete => ⟨.ok (f.outcome none), f.deadline, []⟩
      | .canceled => ⟨.error .canceled, f.deadline, []⟩
      | .failed (.category e) =>
        ⟨.ok (f.outcome (some e.message)), f.deadline, [abortEntry m.seed f.steps e.message]⟩
      | .failed e => ⟨.error (.program e), f.deadline, []⟩

/-- The forage arena, with the standard values for sizes that are not positive. -/
def forage (c : Config) : Simulator where
  name := "forage"
  play _ deadline m := playMatch c.withDefaults deadline m

end Forager.Arena
