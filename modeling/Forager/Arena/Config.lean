import Forager.Arena.Geometry

/-!
# Size of the arena
-/

namespace Forager.Arena

set_option autoImplicit false

/-- The size of the field and of a match. -/
structure Config where
  length : Float := 0
  width : Float := 0
  treats : Int := 0
  maxSteps : Int := 0
  robotsPerTeam : Int := 0
  sensorRange : Float := 0

/-- What stands in for values that are not positive. -/
def Config.standard : Config := ⟨220, 150, 20, 20000, 3, 100⟩

/-- The configuration with the standard values for those that are not positive. -/
def Config.withDefaults (c : Config) : Config :=
  let d := Config.standard
  { length := if c.length ≤ 0 then d.length else c.length
    width := if c.width ≤ 0 then d.width else c.width
    treats := if c.treats ≤ 0 then d.treats else c.treats
    maxSteps := if c.maxSteps ≤ 0 then d.maxSteps else c.maxSteps
    robotsPerTeam := if c.robotsPerTeam ≤ 0 then d.robotsPerTeam else c.robotsPerTeam
    sensorRange := if c.sensorRange ≤ 0 then d.sensorRange else c.sensorRange }

/-- The two teams. The home team is the one being scored; its goal is at the left end of the field. -/
inductive Side where
  | home
  | away
  deriving DecidableEq, Repr

namespace Side

def all : List Side := [.home, .away]

def number : Side → Nat
  | .home => 0
  | .away => 1

def ofNumber? (n : Int) : Option Side := all.find? fun s => s.number == n

end Side

/-- Where robot `i` of a team starts. The team stands in a column in its own half; the middle one of an odd number
stands further forward, and a robot alone stands in the middle. -/
def Config.start (c : Config) (side : Side) (i : Nat) : Vec :=
  let n := c.robotsPerTeam
  let gaps := if n - 1 ≤ 1 then 1 else Float.ofInt (n - 1)
  let y := if n = 1 then c.width / 2 else c.width * (0.2 + 0.6 * Float.ofNat i / gaps)
  let x := if n % 2 = 1 && i = n / 2 then c.length * 0.4 else c.length * 0.2
  ⟨match side with | .home => x | .away => c.length - x, y⟩

def Config.goal (c : Config) : Side → Vec
  | .home => ⟨0, c.width / 2⟩
  | .away => ⟨c.length, c.width / 2⟩

end Forager.Arena
