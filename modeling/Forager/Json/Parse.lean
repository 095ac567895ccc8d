import Forager.Json.Basic
import Forager.Number.Read

/-!
# Reading JSON

`parse?` reads a text that holds one value. `unescape` gives the text of a string; half of a pair of surrogates
without the other half reads as U+FFFD.
-/

namespace Forager.Json

set_option autoImplicit false

/-! ## Strings -/

def hex4? : List Char → Option (Nat × List Char)
  | a :: b :: c :: d :: rest => do
    let a ← Number.digitValue? a
    let b ← Number.digitValue? b
    let c ← Number.digitValue? c
    let d ← Number.digitValue? d
    return (((a * 16 + b) * 16 + c) * 16 + d, rest)
  | _ => none

/-- The character that a letter stands for after a backslash. -/
def unescapeLetter? (letter : Char) : Option Char :=
  if letter = '/' then some '/' else (shortEscapes.find? (·.2 == letter)).map (·.1)

/-- What stands between the opening quote, which was read, and the closing one, and what follows it. -/
def scanString : List Char → Option (List Char × List Char)
  | [] => none
  | '"' :: rest => some ([], rest)
  | '\\' :: 'u' :: rest =>
    match rest with
    | a :: b :: c :: d :: more =>
      if (hex4? [a, b, c, d]).isSome then
        (scanString more).map fun (source, after) => ('\\' :: 'u' :: a :: b :: c :: d :: source, after)
      else none
    | _ => none
  | '\\' :: letter :: rest =>
    if (unescapeLetter? letter).isSome then
      (scanString rest).map fun (source, after) => ('\\' :: letter :: source, after)
    else none
  | ['\\'] => none
  | c :: rest =>
    if c.toNat < 0x20 then none else (scanString rest).map fun (source, after) => (c :: source, after)

/-- Whether a code is the first or the second half of a pair. -/
def isHighHalf (n : Nat) : Bool := 0xD800 ≤ n && n < 0xDC00

@[inherit_doc isHighHalf]
def isLowHalf (n : Nat) : Bool := 0xDC00 ≤ n && n < 0xE000

/-- The text of a string. `pending` is the first half of a pair whose second half may follow. -/
def unescapeFrom : (pending : Option Nat) → List Char → List Char
  | pending, [] => lone pending
  | pending, '\\' :: 'u' :: rest =>
    match rest with
    | a :: b :: c :: d :: more =>
      match hex4? [a, b, c, d] with
      | none => lone pending ++ unescapeFrom none more
      | some (n, _) =>
        if isLowHalf n then
          match pending with
          | some high => Char.ofNat (0x10000 + (high - 0xD800) * 0x400 + (n - 0xDC00)) :: unescapeFrom none more
          | none => '\uFFFD' :: unescapeFrom none more
        else if isHighHalf n then lone pending ++ unescapeFrom (some n) more
        else lone pending ++ Char.ofNat n :: unescapeFrom none more
    | _ => lone pending
  | pending, '\\' :: letter :: rest =>
    lone pending ++ (unescapeLetter? letter).getD letter :: unescapeFrom none rest
  | pending, c :: rest => lone pending ++ c :: unescapeFrom none rest
where
  /-- What stands for a first half that is left alone. -/
  lone : Option Nat → List Char
    | some _ => ['\uFFFD']
    | none => []

def unescape (source : List Char) : String := String.ofList (unescapeFrom none source)

/-! ## Numbers -/

/-- At least one digit, and what follows. -/
def scanDigits (cs : List Char) : Option (List Char × List Char) :=
  let digits := cs.takeWhile Char.isDigit
  if digits.isEmpty then none else some (digits, cs.dropWhile Char.isDigit)

/-- An integer without superfluous zeros, and what follows. -/
def scanInteger : List Char → Option (List Char × List Char)
  | '0' :: rest => some (['0'], rest)
  | cs => scanDigits cs

/-- The digits after a point, if there is one. -/
def scanFraction : List Char → Option (List Char × List Char)
  | '.' :: rest => (scanDigits rest).map fun (digits, rest) => ('.' :: digits, rest)
  | cs => some ([], cs)

def scanSign : List Char → List Char × List Char
  | '+' :: rest => (['+'], rest)
  | '-' :: rest => (['-'], rest)
  | cs => ([], cs)

def scanExponent : List Char → Option (List Char × List Char)
  | c :: rest =>
    if c = 'e' || c = 'E' then
      let (sign, rest) := scanSign rest
      (scanDigits rest).map fun (digits, rest) => (c :: sign ++ digits, rest)
    else some ([], c :: rest)
  | [] => some ([], [])

def scanNumber (cs : List Char) : Option (List Char × List Char) := do
  let (sign, cs) := match cs with | '-' :: rest => (['-'], rest) | cs => ([], cs)
  let (whole, cs) ← scanInteger cs
  let (fraction, cs) ← scanFraction cs
  let (exponent, cs) ← scanExponent cs
  return (sign ++ whole ++ fraction ++ exponent, cs)

/-! ## Values -/

def isBlank (c : Char) : Bool := c = ' ' || c = '\t' || c = '\n' || c = '\r'

def skipBlanks (cs : List Char) : List Char := cs.dropWhile isBlank

/-- How many arrays and objects may be nested. -/
def nestingLimit : Nat := 10000

mutual

/-- The value that the characters begin with, inside `depth` arrays and objects, and what follows it. -/
def value? : (fuel depth : Nat) → List Char → Option (Json × List Char)
  | 0, _, _ => none
  | fuel + 1, depth, cs =>
    match skipBlanks cs with
    | 'n' :: 'u' :: 'l' :: 'l' :: rest => some (.null, rest)
    | 't' :: 'r' :: 'u' :: 'e' :: rest => some (.bool true, rest)
    | 'f' :: 'a' :: 'l' :: 's' :: 'e' :: rest => some (.bool false, rest)
    | '"' :: rest => (scanString rest).map fun (source, rest) => (.string source, rest)
    | '[' :: rest =>
      if nestingLimit ≤ depth then none
      else match skipBlanks rest with
        | ']' :: rest => some (.array [], rest)
        | cs => do
          let (item, cs) ← value? fuel (depth + 1) cs
          let (items, cs) ← items? fuel (depth + 1) cs
          return (.array (item :: items), cs)
    | '{' :: rest =>
      if nestingLimit ≤ depth then none
      else match skipBlanks rest with
        | '}' :: rest => some (.object [], rest)
        | cs => do
          let (field, cs) ← field? fuel (depth + 1) cs
          let (fields, cs) ← fields? fuel (depth + 1) cs
          return (.object (field :: fields), cs)
    | cs => (scanNumber cs).map fun (source, rest) => (.number source, rest)

/-- The items of an array after the first. -/
def items? : (fuel depth : Nat) → List Char → Option (List Json × List Char)
  | 0, _, _ => none
  | fuel + 1, depth, cs =>
    match skipBlanks cs with
    | ']' :: rest => some ([], rest)
    | ',' :: rest => do
      let (item, cs) ← value? fuel depth rest
      let (items, cs) ← items? fuel depth cs
      return (item :: items, cs)
    | _ => none

def field? : (fuel depth : Nat) → List Char → Option ((List Char × Json) × List Char)
  | 0, _, _ => none
  | fuel + 1, depth, cs =>
    match skipBlanks cs with
    | '"' :: rest => do
      let (key, cs) ← scanString rest
      match skipBlanks cs with
      | ':' :: rest => do
        let (value, cs) ← value? fuel depth rest
        return ((key, value), cs)
      | _ => none
    | _ => none

def fields? : (fuel depth : Nat) → List Char → Option (List (List Char × Json) × List Char)
  | 0, _, _ => none
  | fuel + 1, depth, cs =>
    match skipBlanks cs with
    | '}' :: rest => some ([], rest)
    | ',' :: rest => do
      let (field, cs) ← field? fuel depth rest
      let (fields, cs) ← fields? fuel depth cs
      return (field :: fields, cs)
    | _ => none

end

/-- The one value that a text holds. -/
def parse? (text : String) : Option Json :=
  let cs := text.toList
  match value? (cs.length + 1) 0 cs with
  | some (j, rest) => if (skipBlanks rest).isEmpty then some j else none
  | none => none

end Forager.Json
