import Forager.Number.Layout
import Forager.Text.Quoted

/-!
# JSON values

A value keeps numbers and strings as they are written, so that the reader of a value decides what they mean.
`escape` writes a text inside quotes, with the characters that are special in HTML written by their code points.
-/

namespace Forager

set_option autoImplicit false

/-- A JSON value as it is written. -/
inductive Json where
  | null
  | bool (b : Bool)
  /-- A number by its digits. -/
  | number (source : List Char)
  /-- A string by what stands between its quotes. -/
  | string (source : List Char)
  | array (items : List Json)
  /-- An object by its keys, as they stand between their quotes, and values. -/
  | object (fields : List (List Char × Json))
  deriving Repr, Inhabited

namespace Json

/-! ## Strings -/

/-- The short escapes: the character and the letter that stands for it. -/
def shortEscapes : List (Char × Char) :=
  [('"', '"'), ('\\', '\\'), ('\x08', 'b'), ('\x0C', 'f'), ('\n', 'n'), ('\r', 'r'), ('\t', 't')]

/-- Whether a character is written by its code point. -/
def isEscapedByCode (c : Char) : Bool :=
  c.toNat < 0x20 || c = '<' || c = '>' || c = '&' || c.toNat = 0x2028 || c.toNat = 0x2029

def escapeChar (c : Char) : List Char :=
  match shortEscapes.find? (·.1 == c) with
  | some (_, letter) => ['\\', letter]
  | none => if isEscapedByCode c then '\\' :: 'u' :: Text.hex 4 c.toNat else [c]

def escape (text : String) : List Char := text.toList.flatMap escapeChar

def ofText (text : String) : Json := .string (escape text)

def ofInt (n : Int) : Json := .number (toString n).toList

/-- The number with this value, if it is finite. -/
def ofFloat? (x : Float) : Option Json := (Number.json? x).map fun text => .number text.toList

def ofTexts (texts : List String) : Json := .array (texts.map ofText)

def ofFields (fields : List (String × Json)) : Json := .object (fields.map fun (key, value) => (escape key, value))

/-! ## Writing -/

/-- What stands between quotes, with the quotes. -/
def quoted (source : List Char) : List Char := '"' :: (source ++ ['"'])

mutual

/-- The value without blanks. -/
def chars : Json → List Char
  | .null => ['n', 'u', 'l', 'l']
  | .bool true => ['t', 'r', 'u', 'e']
  | .bool false => ['f', 'a', 'l', 's', 'e']
  | .number source => source
  | .string source => quoted source
  | .array [] => ['[', ']']
  | .array (item :: rest) => '[' :: (chars item ++ charsItems rest)
  | .object [] => ['{', '}']
  | .object ((key, value) :: rest) => '{' :: (quoted key ++ ':' :: (chars value ++ charsFields rest))

/-- The items of an array after the first. -/
def charsItems : List Json → List Char
  | [] => [']']
  | item :: rest => ',' :: (chars item ++ charsItems rest)

def charsFields : List (List Char × Json) → List Char
  | [] => ['}']
  | (key, value) :: rest => ',' :: (quoted key ++ ':' :: (chars value ++ charsFields rest))

end

def print (j : Json) : String := String.ofList j.chars

/-- A new line, indented two spaces for each level. -/
def newline (depth : Nat) : List Char := '\n' :: List.replicate (2 * depth) ' '

mutual

/-- The value over several lines, inside `depth` levels. -/
def layout (depth : Nat) : Json → List Char
  | .array (item :: rest) => '[' :: (newline (depth + 1) ++ layout (depth + 1) item ++ layoutItems depth rest)
  | .object ((key, value) :: rest) =>
    '{' :: (newline (depth + 1) ++ quoted key ++ ':' :: ' ' :: (layout (depth + 1) value ++ layoutFields depth rest))
  | j => chars j

def layoutItems (depth : Nat) : List Json → List Char
  | [] => newline depth ++ [']']
  | item :: rest => ',' :: (newline (depth + 1) ++ layout (depth + 1) item ++ layoutItems depth rest)

def layoutFields (depth : Nat) : List (List Char × Json) → List Char
  | [] => newline depth ++ ['}']
  | (key, value) :: rest =>
    ',' :: (newline (depth + 1) ++ quoted key ++ ':' :: ' ' ::
      (layout (depth + 1) value ++ layoutFields depth rest))

end

/-- The value over several lines, with a newline at the end. -/
def pretty (j : Json) : String := String.ofList (layout 0 j ++ ['\n'])

end Json

end Forager
