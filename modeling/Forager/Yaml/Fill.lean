import Forager.Yaml.Parse

/-!
# The meaning of YAML nodes

A plain scalar may be null, a truth value, an integer or a real number; any other scalar is a text. `Fill` reads a
mapping into a record: keys of no field are skipped, null leaves a field as it is, no key may come twice, and the
mappings under `<<` fill in what the mapping itself does not have.
-/

namespace Forager.Yaml

set_option autoImplicit false

inductive Meaning where
  | null
  | flag (b : Bool)
  /-- An integer of 64 bits, with or without sign. -/
  | integer (n : Int)
  | real (x : Float)
  | text

/-- The name of the tag that goes with a meaning. -/
def Meaning.tagName : Meaning → String
  | .null => "null"
  | .flag _ => "bool"
  | .integer _ => "int"
  | .real _ => "float"
  | .text => "str"

def meaningOfWord? (word : String) : Option Meaning :=
  if ["", "~", "null", "Null", "NULL"].contains word then some .null
  else if ["true", "True", "TRUE"].contains word then some (.flag true)
  else if ["false", "False", "FALSE"].contains word then some (.flag false)
  else if [".nan", ".NaN", ".NAN"].contains word then some (.real Number.nan)
  else if [".inf", ".Inf", ".INF", "+.inf", "+.Inf", "+.INF"].contains word then some (.real (Number.infinity false))
  else if ["-.inf", "-.Inf", "-.INF"].contains word then some (.real (Number.infinity true))
  else none

/-- The digits of a decimal numeral with a point and an exponent. -/
def isDecimal (cs : List Char) : Bool :=
  let cs := (Number.splitSign cs).2
  let whole := cs.takeWhile Char.isDigit
  let cs := cs.dropWhile Char.isDigit
  let (pointed, fraction, cs) := match cs with
    | '.' :: rest => (true, rest.takeWhile Char.isDigit, rest.dropWhile Char.isDigit)
    | _ => (false, [], cs)
  let exponentFits := match cs with
    | [] => true
    | c :: rest =>
      let digits := (Number.splitSign rest).2
      (c = 'e' || c = 'E') && !digits.isEmpty && digits.all Char.isDigit
  exponentFits && (if whole.isEmpty then pointed && !fraction.isEmpty else true)

/-- The integer with its base in front, of 64 bits with or without sign. -/
def integer? (digits : String) : Option Int :=
  match Number.literal? digits with
  | .ok n => some n
  | .error _ =>
    let (base, unsigned) := Number.splitBase digits.toList
    (Number.natural? base false unsigned).toOption.map fun n => (n : Int)

/-- The meaning of a numeral, if it is one. -/
def meaningOfNumeral? (word : String) : Option Meaning :=
  let digits := String.ofList (word.toList.filter (· ≠ '_'))
  match integer? digits with
  | some n => some (.integer n)
  | none =>
    if isDecimal digits.toList then (Number.real? digits).toOption.map .real else none

def meaningOf (word : String) : Meaning :=
  match meaningOfWord? word with
  | some m => m
  | none =>
    match word.toList.head? with
    | some c =>
      if c = '.' then ((Number.real? word).toOption.map .real).getD .text
      else if c.isDigit || c = '+' || c = '-' then (meaningOfNumeral? word).getD .text
      else .text
    | none => .null

/-- The meaning of a scalar. A tag that its text does not bear out is an error. -/
def scalarMeaning (isPlain : Bool) (tag : Tag) (text : String) : Option Meaning :=
  match tag with
  | .absent => some (if isPlain then meaningOf text else .text)
  | .core "str" => some .text
  | .core "binary" => some .text
  | .core name =>
    match meaningOf text with
    | .integer n =>
      if name = "int" then some (.integer n)
      else if name = "float" then some (.real (Float.ofInt n))
      else none
    | m => if m.tagName = name then some m else none
  | .other _ => none

/-- A way to fill in a value from a node. It fails if the node is of another kind. -/
abbrev Fill (α : Type) := α → Node → Option α

namespace Fill

/-- Fills in a value from a scalar that is not null. -/
def scalar {α : Type} (read : Meaning → String → Option α) : Fill (Option α)
  | _, .scalar isPlain tag text =>
    match scalarMeaning isPlain tag text with
    | none => none
    | some .null => some none
    | some m => (read m text).map some
  | _, _ => none

def text : Fill (Option String) := scalar fun _ text => some text

/-- The integer part of a real number; numbers out of range give the least integer. -/
def truncate (x : Float) : Int64 := if x < 9223372036854775808.0 then x.toInt64 else Int64.minValue

/-- Fills in an integer of 64 bits. A real number that is not too large loses its fraction. -/
def integer : Fill (Option Int64) := scalar fun m _ =>
  match m with
  | .integer n => if n ≤ Number.greatestInt then some (Int64.ofInt n) else none
  | .real x => if x ≤ 9223372036854775808.0 then some (truncate x) else none
  | _ => none

def real : Fill (Option Float) := scalar fun m _ =>
  match m with
  | .integer n => some (Float.ofInt n)
  | .real x => some x
  | _ => none

def part {ρ α : Type} (get : ρ → α) (set : ρ → α → ρ) (fill : Fill α) : Fill ρ :=
  fun r n => (fill (get r) n).map (set r)

/-- Whether a key asks for other mappings to be merged. -/
def isMerge : Node → Bool
  | .scalar true .absent "<<" => true
  | .scalar _ (.core "merge") "<<" => true
  | _ => false

/-- The text of a key, if it is no null. A key must be a scalar. -/
def keyText : Node → Option (Option String)
  | .scalar isPlain tag text =>
    match scalarMeaning isPlain tag text with
    | none => none
    | some .null => some none
    | some _ => some (some text)
  | _ => none

/-- The text by which two keys are compared. -/
def keyMark : Node → Option String
  | .scalar _ _ text => some text
  | _ => none

def distinctKeys : List (Node × Node) → Bool
  | [] => true
  | (key, _) :: rest => !(rest.any fun e => keyMark e.1 == keyMark key) && distinctKeys rest

/-- Fills in the fields of a record from entries, except those that are done. -/
def entries {ρ : Type} (fields : List (String × Fill ρ)) : List (Node × Node) → ρ → List String →
    Option (ρ × List String)
  | [], r, done => some (r, done)
  | (key, value) :: rest, r, done =>
    if isMerge key then entries fields rest r done
    else match keyText key with
      | none => none
      | some none => entries fields rest r done
      | some (some name) =>
        if done.contains name then entries fields rest r done
        else match fields.lookup name with
          | none => entries fields rest r (name :: done)
          | some fill => (fill r value).bind fun r => entries fields rest r (name :: done)

mutual

/-- Fills in the fields of a record from a mapping and the mappings that it merges, except those that are done. -/
def mapping {ρ : Type} (fields : List (String × Fill ρ)) : Node → ρ → List String → Option (ρ × List String)
  | .mapping es, r, done =>
    if distinctKeys es then (entries fields es r done).bind fun (r, done) => merges fields es r done else none
  | _, _, _ => none

/-- Merges the mappings under the key for it. -/
def merges {ρ : Type} (fields : List (String × Fill ρ)) : List (Node × Node) → ρ → List String →
    Option (ρ × List String)
  | [], r, done => some (r, done)
  | (key, value) :: rest, r, done =>
    if isMerge key then
      match value with
      | .sequence items => mergeAll fields items r done
      | other => mapping fields other r done
    else merges fields rest r done

/-- Merges mappings; what an earlier one has, a later one does not change. -/
def mergeAll {ρ : Type} (fields : List (String × Fill ρ)) : List Node → ρ → List String → Option (ρ × List String)
  | [], r, done => some (r, done)
  | n :: rest, r, done => (mapping fields n r done).bind fun (r, done) => mergeAll fields rest r done

end

def record {ρ : Type} (fields : List (String × Fill ρ)) : Fill ρ
  | r, .mapping es => (mapping fields (.mapping es) r []).map (·.1)
  | r, .scalar isPlain tag text =>
    match scalarMeaning isPlain tag text with
    | some .null => some r
    | _ => none
  | _, .sequence _ => none

end Fill

end Forager.Yaml
