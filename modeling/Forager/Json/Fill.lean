import Forager.Json.Parse
import Forager.Text.Fold
import Forager.Timestamp

/-!
# Reading records

A record is read by filling in its fields from an object. Keys are matched in any case, keys of no field are skipped,
`null` leaves a field as it is, and of several values for a field the last counts.
-/

namespace Forager.Json

set_option autoImplicit false

/-- A way to fill in a value from what is written. It fails if that is of another kind. -/
abbrev Fill (α : Type) := α → Json → Option α

namespace Fill

/-- Fills in an integer of 64 bits, written without point and exponent. -/
def integer : Fill Int64
  | x, .null => some x
  | _, .number source => (Number.integer? (String.ofList source)).toOption.map Int64.ofInt
  | _, _ => none

/-- Fills in a real number within the range of doubles. -/
def real : Fill Float
  | x, .null => some x
  | _, .number source => (Number.real? (String.ofList source)).toOption
  | _, _ => none

def text : Fill String
  | x, .null => some x
  | _, .string source => some (unescape source)
  | _, _ => none

def flag : Fill Bool
  | x, .null => some x
  | _, .bool b => some b
  | _, _ => none

/-- Fills in a timestamp, which must be written without escapes. -/
def timestamp : Fill Timestamp
  | x, .null => some x
  | _, .string source => Timestamp.ofChars? source
  | _, _ => none

/-- Fills in items of a list. Items beyond those of the list start from `blank`. -/
def items {α : Type} (blank : α) (fill : Fill α) : List α → List Json → Option (List α)
  | _, [] => some []
  | [], j :: js => do return (← fill blank j) :: (← items blank fill [] js)
  | x :: xs, j :: js => do return (← fill x j) :: (← items blank fill xs js)

/-- Fills in a list that may be absent. -/
def list {α : Type} (blank : α) (fill : Fill α) : Fill (Option (List α))
  | _, .null => some none
  | xs, .array js => (items blank fill (xs.getD []) js).map some
  | _, _ => none

/-- Fills in a list that is empty when it is absent. -/
def listOrEmpty {α : Type} (blank : α) (fill : Fill α) : Fill (List α) :=
  fun xs j => (list blank fill (some xs) j).map (·.getD [])

def part {ρ α : Type} (get : ρ → α) (set : ρ → α → ρ) (fill : Fill α) : Fill ρ :=
  fun r j => (fill (get r) j).map (set r)

def find? {ρ : Type} (fields : List (String × Fill ρ)) (key : String) : Option (Fill ρ) :=
  ((fields.find? (·.1 == key)).or (fields.find? fun f => Text.sameFolded f.1 key)).map (·.2)

def record {ρ : Type} (fields : List (String × Fill ρ)) : Fill ρ
  | r, .null => some r
  | r, .object entries =>
    entries.foldlM (fun r (key, j) => match find? fields (unescape key) with
      | some fill => fill r j
      | none => some r) r
  | _, _ => none

/-- Reads a whole text into a value that starts as `blank`. -/
def read? {α : Type} (fill : Fill α) (blank : α) (text : String) : Option α := do fill blank (← parse? text)

end Fill

end Forager.Json
