import Forager.Number.Layout

/-!
# Journal

What a run reports while it goes on: entries with a level, a message and named values.
-/

namespace Forager

set_option autoImplicit false

namespace Journal

inductive Level where
  | debug
  | info
  | warn
  | error
  deriving DecidableEq, Repr

def Level.name : Level → String
  | .debug => "debug"
  | .info => "info"
  | .warn => "warn"
  | .error => "error"

def Level.rank : Level → Nat
  | .debug => 0
  | .info => 1
  | .warn => 2
  | .error => 3

inductive Value where
  | text (s : String)
  | integer (n : Int)
  | real (x : Float)

def Value.render : Value → String
  | .text s => s
  | .integer n => toString n
  | .real x => Number.plain x

structure Entry where
  level : Level
  message : String
  fields : List (String × Value)

/-- The entry as texts with their names, its level and message first. -/
def Entry.texts (e : Entry) : List (String × String) :=
  ("level", e.level.name) :: ("msg", e.message) :: e.fields.map fun (name, value) => (name, value.render)

/-- The entry with more values in front. -/
def Entry.within (context : List (String × Value)) (e : Entry) : Entry :=
  { e with fields := context ++ e.fields }

end Journal

/-- Entries in the order in which they were made. -/
abbrev Journal := List Journal.Entry

def Journal.atLeast (level : Journal.Level) (j : Journal) : Journal :=
  j.filter fun e => level.rank ≤ e.level.rank

end Forager
