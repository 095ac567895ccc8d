import Forager.Arena.Config
import Forager.Program.Eval
import Forager.Chance.Source
import Forager.Number.Scalar

/-!
# The world of a match

Robots of two teams and the treats they collect. Robots and treats refer to each other by their places in the lists.
A new world has its robots at their starts and its treats scattered over the field.
-/

namespace Forager.Arena

set_option autoImplicit false

open Program (Expr State)
open Chance (Draw Source)

def robotRadius : Float := 12

def treatRadius : Float := 4

structure Robot where
  side : Side
  program : Expr
  pos : Vec
  heading : Float
  /-- Speeds of the two wheels. -/
  left : Float := 0
  right : Float := 0
  state : State := .search
  /-- Steps since the state was entered. -/
  phase : Nat := 0
  /-- The treat being carried. -/
  carrying : Option Nat := none
  travelled : Float := 0

structure Treat where
  pos : Vec
  /-- The robot that carries it. -/
  carrier : Option Nat := none
  scored : Bool := false

def Treat.isFree (t : Treat) : Bool := t.carrier.isNone && !t.scored

structure Score where
  home : Nat := 0
  away : Nat := 0
  deriving DecidableEq, Repr

def Score.add (s : Score) : Side → Score
  | .home => { s with home := s.home + 1 }
  | .away => { s with away := s.away + 1 }

/-- The state of a match. -/
structure World where
  config : Config
  robots : List Robot
  treats : List Treat
  score : Score := {}

namespace World

def updateRobot (w : World) (i : Nat) (change : Robot → Robot) : World :=
  { w with robots := w.robots.modify i change }

def updateTreat (w : World) (i : Nat) (change : Treat → Treat) : World :=
  { w with treats := w.treats.modify i change }

def remaining (w : World) : Nat := (w.treats.filter fun t => !t.scored).length

end World

/-! ## A new world -/

/-- Whether a treat at this position would overlap one of those placed. -/
def overlaps (placed : List Vec) (p : Vec) : Bool := placed.any fun q => q.distance p < 2 * treatRadius

/-- Draws candidates until `wanted` of them are placed, none of which clashes with one placed before. At most `fuel`
candidates are drawn. -/
def scatter {σ P : Type} (next : StateM σ P) (clash : List P → P → Bool) (wanted : Nat) :
    (fuel : Nat) → List P → StateM σ (Option (List P))
  | 0, placed => pure (if wanted ≤ placed.length then some placed else none)
  | fuel + 1, placed =>
    if wanted ≤ placed.length then pure (some placed)
    else do
      let p ← next
      if clash placed p then scatter next clash wanted fuel placed
      else scatter next clash wanted fuel (placed ++ [p])

/-- How many candidates are drawn for each treat before the field is given up as too small. -/
def attemptsPerTreat : Nat := 1000

/-- The place in the central four fifths of an extent that a fraction selects. -/
def central {R : Type} [Add R] [Mul R] [Div R] [OfInteger R] (extent fraction : R) : R :=
  extent * (fraction * (ofInteger 8 / ofInteger 10) + ofInteger 1 / ofInteger 10)

/-- Draws a position in the central part of the field, given a way to draw a fraction below one. -/
def candidate {σ : Type} (fraction : StateM σ Float) (c : Config) : StateM σ Vec := do
  let u ← fraction
  let v ← fraction
  return ⟨central c.length u, central c.width v⟩

def placeTreats {σ : Type} (fraction : StateM σ Float) (c : Config) : StateM σ (Option (List Vec)) :=
  scatter (candidate fraction c) overlaps c.treats.toNat (attemptsPerTreat * c.treats.toNat + 1) []

/-- The program of robot `i`. Programs are dealt out in turn. -/
def dealt (programs : List Expr) (i : Nat) : Expr := programs.getD (i % programs.length) .idle

/-- The robots of a team at their starts, facing the other side. -/
def lineup (c : Config) (programs : List Expr) (side : Side) : List Robot :=
  (List.range c.robotsPerTeam.toNat).map fun i =>
    { side
      program := dealt programs i
      pos := c.start side i
      heading := match side with | .home => 0 | .away => pi }

/-- A world with the robots of two teams, or none if the treats find no room, given a way to draw a fraction below
one. -/
def World.arrange {σ : Type} (fraction : StateM σ Float) (c : Config) (team opponent : List Expr) :
    StateM σ (Option World) := do
  let places ← placeTreats fraction c
  return places.map fun places =>
    { config := c
      robots := lineup c team .home ++ lineup c opponent .away
      treats := places.map fun p => { pos := p } }

/-- A world with the robots of two teams, or none if the treats find no room. -/
def World.new (c : Config) (team opponent : List Expr) : Draw (Option World) :=
  World.arrange Chance.unit c team opponent

end Forager.Arena
