import Forager.Json.Parse

/-!
# Looking into values

A value can be read as a text, a number or a list whatever it is. One of another kind reads as the empty text, as
zero or as the empty list.
-/

namespace Forager.Json

set_option autoImplicit false

/-- The value of the last field with this key, if there is one. -/
def get? (j : Json) (key : String) : Option Json :=
  match j with
  | .object fields => (fields.reverse.find? fun f => unescape f.1 == key).map (·.2)
  | _ => none

/-- The value of a field, null if it is missing. -/
def get (j : Json) (key : String) : Json := (j.get? key).getD .null

def isNull : Json → Bool
  | .null => true
  | _ => false

def toText : Json → String
  | .string source => unescape source
  | _ => ""

/-- The integer of a number, or of a string that spells one. -/
def toInt : Json → Int
  | .number source | .string source => ((Number.integer? (String.ofList source)).toOption).getD 0
  | _ => 0

/-- The real number of a number, or of a string that spells one. -/
def toReal : Json → Float
  | .number source | .string source => ((Number.real? (String.ofList source)).toOption).getD 0
  | _ => 0

def toBool : Json → Bool
  | .bool b => b
  | _ => false

def toItems : Json → List Json
  | .array items => items
  | _ => []

end Forager.Json
