import Forager.Number.Double

/-!
# Plane geometry in doubles

Vectors, distances, angles and rays. Angles are in radians and are kept between `-π` and `π`.
-/

namespace Forager.Arena

set_option autoImplicit false

def pi : Float := 3.14159265358979323846264338327950288

structure Vec where
  x : Float
  y : Float

/-- The length of the hypotenuse, computed without squaring the longer side. -/
def hypot (x y : Float) : Float :=
  let x := x.abs
  let y := y.abs
  let long := if x < y then y else x
  let short := if x < y then x else y
  if x == Number.infinity false || y == Number.infinity false then Number.infinity false
  else if x != x || y != y then Number.nan
  else if long == 0 then 0
  else
    let q := short / long
    long * (1 + q * q).sqrt

namespace Vec

def add (v w : Vec) : Vec := ⟨v.x + w.x, v.y + w.y⟩

def sub (v w : Vec) : Vec := ⟨v.x - w.x, v.y - w.y⟩

def scale (v : Vec) (k : Float) : Vec := ⟨v.x * k, v.y * k⟩

def dot (v w : Vec) : Float := v.x * w.x + v.y * w.y

def length (v : Vec) : Float := hypot v.x v.y

def distance (v w : Vec) : Float := (v.sub w).length

end Vec

def direction (angle : Float) : Vec := ⟨angle.cos, angle.sin⟩

/-- How many turns an angle is wound back at most. -/
def turnLimit : Nat := 1000000000

/-- Takes whole turns off an angle until it is at most `π`. -/
def unwindDown : Nat → Float → Float
  | 0, a => a
  | fuel + 1, a => if a > pi then unwindDown fuel (a - 2 * pi) else a

/-- Adds whole turns to an angle until it is at least `-π`. -/
def unwindUp : Nat → Float → Float
  | 0, a => a
  | fuel + 1, a => if a < -pi then unwindUp fuel (a + 2 * pi) else a

/-- The angle between `-π` and `π` that differs by whole turns. -/
def wrapAngle (a : Float) : Float := unwindUp turnLimit (unwindDown turnLimit a)

/-- The value, or the bound that it exceeds. -/
def clamp (v low high : Float) : Float := if v < low then low else if v > high then high else v

/-- The smaller of two doubles. Not a number wins against all but minus infinity, and `-0` against `0`. -/
def minimum (x y : Float) : Float :=
  let bottom := Number.infinity true
  if x == bottom || y == bottom then bottom
  else if x != x || y != y then Number.nan
  else if x == 0 && y == 0 then (if x.toBits >>> 63 == 1 then x else y)
  else if x < y then x else y

/-- How far along a ray in the unit direction `dir` the circle begins, if the ray meets it in front of its origin. -/
def rayCircle (origin dir center : Vec) (radius : Float) : Option Float :=
  let toward := center.sub origin
  let along := toward.dot dir
  if along ≤ 0 then none
  else
    let offset := toward.dot toward - along * along
    let square := radius * radius
    if offset > square then none else some (along - (square - offset).sqrt)

end Forager.Arena
