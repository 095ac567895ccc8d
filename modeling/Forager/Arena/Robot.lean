import Forager.Arena.World

/-!
# Robots in the world

What a robot senses and does. `agent` is a robot as its program sees it; `move`, `advance` and `deliver` are what the
world does with it at the end of a step.
-/

namespace Forager.Arena

set_option autoImplicit false

open Program (State Agent)

/-- How far beyond touching a treat can be picked up. -/
def pickUpReach : Float := 2

def maxSpeed : Float := 2

/-- Half of the angle that the camera covers. -/
def fieldOfView : Float := 0.52359877559829887307710723054658381

/-- Half of `fieldOfView`. -/
def grabView : Float := 0.26179938779914943653855361527329190

/-- How long a robot backs up after a delivery. -/
def backupSteps : Nat := 20

def uturnSteps : Nat := 30

def Robot.enter (r : Robot) (state : State) : Robot := { r with state, phase := 0 }

/-- Sets the speeds of the wheels, as far as they go. -/
def Robot.drive (r : Robot) (left right : Float) : Robot :=
  { r with left := clamp left (-maxSpeed) maxSpeed, right := clamp right (-maxSpeed) maxSpeed }

/-- Lets a step pass. Backing up and turning end after a while. -/
def Robot.advance (r : Robot) : Robot :=
  let r := { r with phase := r.phase + 1 }
  if r.state = .backup && backupSteps ≤ r.phase then r.enter .uturn
  else if r.state = .uturn && uturnSteps ≤ r.phase then r.enter .search
  else r

structure Sighting where
  treat : Nat
  distance : Float
  angle : Float

namespace World

variable (w : World)

def others (i : Nat) : List Robot := w.robots.eraseIdx i

/-- The free distance from the edge of a robot at `pos` to the nearest wall or robot, in the direction of a sensor. -/
def senseRange (i : Nat) (r : Robot) (sensor : Int) : Float :=
  let c := w.config
  let dir := direction (r.heading + Float.ofInt sensor * 2 * pi / 16)
  let hit := c.sensorRange + robotRadius
  let hit :=
    if dir.x > 0 then minimum hit ((c.length - r.pos.x) / dir.x)
    else if dir.x < 0 then minimum hit (-r.pos.x / dir.x) else hit
  let hit :=
    if dir.y > 0 then minimum hit ((c.width - r.pos.y) / dir.y)
    else if dir.y < 0 then minimum hit (-r.pos.y / dir.y) else hit
  let hit := (w.others i).foldl (fun hit other =>
    match rayCircle r.pos dir other.pos robotRadius with
    | some t => minimum hit t
    | none => hit) hit
  clamp (hit - robotRadius) 0 c.sensorRange

/-- The nearest of the free treats inside the field of view, from treat `i` on, given the nearest before them. -/
def nearest (r : Robot) : Nat → Option Sighting → List Treat → Option Sighting
  | _, best, [] => best
  | i, best, t :: rest =>
    let rel := t.pos.sub r.pos
    let angle := wrapAngle (Float.atan2 rel.y rel.x - r.heading)
    let best :=
      if !t.isFree || angle.abs ≥ fieldOfView then best
      else
        let d := rel.length
        if d < (best.map (·.distance)).getD (Number.infinity false) then some ⟨i, d, angle⟩ else best
    nearest r (i + 1) best rest

def inView (r : Robot) : Option Sighting := nearest r 0 none w.treats

/-- The bearing of the nearest treat in view, from -1 to 1. -/
def midpointInView (r : Robot) : Float :=
  match w.inView r with
  | some s => s.angle / fieldOfView
  | none => 0

/-- The angle that the nearest treat in view spans. -/
def widthInView (r : Robot) : Float :=
  match w.inView r with
  | some s => 2 * Float.atan2 treatRadius s.distance
  | none => 0

/-- The treat that a robot can grab: the nearest in view, if it is close and about straight ahead. -/
def grabbable (r : Robot) : Option Nat :=
  if r.carrying.isSome then none
  else match w.inView r with
    | some s =>
      if s.distance > robotRadius + treatRadius + pickUpReach || s.angle.abs > grabView then none else some s.treat
    | none => none

/-- Lets robot `i` pick up a treat and tells whether it did. -/
def pickUp (i : Nat) : Bool × World :=
  match w.robots[i]? with
  | some r =>
    match w.grabbable r with
    | some t =>
      let w := w.updateTreat t fun treat => { treat with carrier := some i }
      (true, w.updateRobot i fun r => { r with carrying := some t }.enter .carry)
    | none => (false, w)
  | none => (false, w)

/-! ## What happens at the end of a step -/

/-- Whether a robot at this position would reach into a wall. -/
def Config.outOfField (c : Config) (p : Vec) : Bool :=
  p.x < robotRadius || p.x > c.length - robotRadius || p.y < robotRadius || p.y > c.width - robotRadius

/-- Whether robot `i` at this position would reach into a wall or another robot. -/
def blocked (i : Nat) (p : Vec) : Bool :=
  Config.outOfField w.config p || (w.others i).any fun other => p.distance other.pos < 2 * robotRadius

/-- Turns robot `i` and moves it ahead, with the treat it carries. If the way is blocked it only turns. -/
def move (i : Nat) : World :=
  match w.robots[i]? with
  | some r =>
    let heading := wrapAngle (r.heading + (r.right - r.left) / robotRadius)
    let speed := (r.left + r.right) / 2
    let next := r.pos.add ((direction heading).scale speed)
    if w.blocked i next then w.updateRobot i fun r => { r with heading }
    else
      let travelled := r.travelled + next.distance r.pos
      let w := w.updateRobot i fun r => { r with heading, travelled, pos := next }
      match r.carrying with
      | some t =>
        let pos := next.add ((direction heading).scale (robotRadius + treatRadius))
        w.updateTreat t fun treat => { treat with pos }
      | none => w
  | none => w

def advance (i : Nat) : World := w.updateRobot i Robot.advance

def atGoal (r : Robot) : Bool :=
  !(r.pos.distance (w.config.goal r.side) > w.config.width / 4 + robotRadius)

/-- Scores the treat that robot `i` carries, if it has reached its goal. -/
def deliver (i : Nat) : World :=
  match w.robots[i]? with
  | some r =>
    match r.carrying with
    | some t =>
      if w.atGoal r then
        let w := w.updateTreat t fun treat => { treat with scored := true, carrier := none }
        let w := { w with score := w.score.add r.side }
        w.updateRobot i fun r => { r with carrying := none }.enter .backup
      else w
    | none => w
  | none => w

end World

def observe {α : Type} (i : Nat) (otherwise : α) (read : World → Robot → α) : StateM World α := fun w =>
  (match w.robots[i]? with
    | some r => read w r
    | none => otherwise, w)

/-- Robot `i` as its program sees it. -/
def agent (i : Nat) : Agent World where
  range sensor := observe i 0 fun w r => w.senseRange i r sensor
  midpoint := observe i 0 World.midpointInView
  width := observe i 0 World.widthInView
  inState state := observe i false fun _ r => r.state = state
  pickUp := fun w => w.pickUp i
  setSpeed left right := modify fun w => w.updateRobot i fun r => r.drive left right
  isCarrying := observe i false fun _ r => r.state = .carry

end Forager.Arena
