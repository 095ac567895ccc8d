import Forager.Number.Read
import Forager.Text.Quoted
import Forager.Text.Utf8

/-!
# Flags

A flag is written `--name value` or `--name=value`. A toggle needs no value, and may have a letter, so that `-v` is
short for `--verbose` and `-vx` for `-v -x`. Flags and other arguments come in any order, and what follows `--` is no
flag. `parse` separates them; the last of several values of a flag counts.
-/

namespace Forager.Command

set_option autoImplicit false

inductive FlagKind where
  | text
  | integer
  | real
  | toggle
  deriving DecidableEq, Repr

/-- A flag. Only toggles have letters. -/
structure Flag where
  name : String
  kind : FlagKind := .text
  letter : Option Char := none

inductive FlagValue where
  | text (s : String)
  | integer (n : Int64)
  | real (x : Float)
  | toggle (b : Bool)

inductive FlagError where
  | malformed (argument : String)
  | unknown (name : String)
  /-- A letter of no flag, with the letters from there on. -/
  | unknownLetter (letters : List Char)
  | needsValue (name : String)
  | invalid (flag : Flag) (value : String) (e : Number.ReadError)

def Flag.label (f : Flag) : String :=
  match f.letter with
  | some c => s!"-{c}, --{f.name}"
  | none => s!"--{f.name}"

/-- How the readers of values are named in messages. -/
def FlagKind.reader : FlagKind → String
  | .text => ""
  | .integer => "strconv.ParseInt"
  | .real => "strconv.ParseFloat"
  | .toggle => "strconv.ParseBool"

/-- The first byte of letters as a character between single quotes. -/
def quotedLetter (letters : List Char) : String :=
  match Text.bytes (String.ofList letters) with
  | [] => "''"
  | b :: _ =>
    let c := Char.ofNat b.toNat
    let body := if c = '"' then [c] else if c.toNat = 0x27 then ['\\', c] else Text.quotedChar c
    s!"'{String.ofList body}'"

def FlagError.message : FlagError → String
  | .malformed argument => s!"bad flag syntax: {argument}"
  | .unknown name => s!"unknown flag: --{name}"
  | .unknownLetter letters => s!"unknown shorthand flag: {quotedLetter letters} in -{String.ofList letters}"
  | .needsValue name => s!"flag needs an argument: --{name}"
  | .invalid flag value e =>
    s!"invalid argument {Text.quote value} for {Text.quote flag.label} flag: " ++
      s!"{flag.kind.reader}: parsing {Text.quote value}: {e.message}"

def toggle? (text : String) : Except Number.ReadError Bool :=
  if ["1", "t", "T", "TRUE", "true", "True"].contains text then .ok true
  else if ["0", "f", "F", "FALSE", "false", "False"].contains text then .ok false
  else .error .malformed

def FlagKind.read (kind : FlagKind) (text : String) : Except Number.ReadError FlagValue :=
  match kind with
  | .text => .ok (.text text)
  | .integer => (Number.literal? text).map fun n => .integer (.ofInt n)
  | .real => (Number.real? text).map .real
  | .toggle => (toggle? text).map .toggle

/-! ## Options -/

/-- The flags that were given, the last one first, and the other arguments. -/
structure Options where
  given : List (String × FlagValue) := []
  arguments : List String := []

namespace Options

def has (o : Options) (name : String) : Bool := (o.given.lookup name).isSome

def text (o : Options) (name : String) (standard : String) : String :=
  match o.given.lookup name with
  | some (.text s) => s
  | _ => standard

def integer (o : Options) (name : String) (standard : Int64) : Int64 :=
  match o.given.lookup name with
  | some (.integer n) => n
  | _ => standard

def real (o : Options) (name : String) (standard : Float) : Float :=
  match o.given.lookup name with
  | some (.real x) => x
  | _ => standard

def isOn (o : Options) (name : String) : Bool :=
  match o.given.lookup name with
  | some (.toggle b) => b
  | _ => false

def give (o : Options) (flag : Flag) (value : String) : Except FlagError Options :=
  match flag.kind.read value with
  | .ok v => .ok { o with given := (flag.name, v) :: o.given }
  | .error e => .error (.invalid flag value e)

def add (o : Options) (argument : String) : Options := { o with arguments := o.arguments ++ [argument] }

end Options

/-! ## Arguments -/

inductive Shape where
  | other
  | stop
  | malformed
  | letters (cs : List Char)
  | flag (name : String) (value : Option String)

/-- A name and the value after the first equals sign. -/
def splitValue (cs : List Char) : String × Option String :=
  let name := cs.takeWhile (· ≠ '=')
  match cs.dropWhile (· ≠ '=') with
  | [] => (String.ofList name, none)
  | _ :: value => (String.ofList name, some (String.ofList value))

def Shape.ofArgument (argument : String) : Shape :=
  match argument.toList with
  | ['-', '-'] => .stop
  | '-' :: '-' :: c :: rest =>
    if c = '-' || c = '=' then .malformed
    else .flag (splitValue (c :: rest)).1 (splitValue (c :: rest)).2
  | '-' :: c :: rest => .letters (c :: rest)
  | _ => .other

/-- Turns on the toggles of these letters. A value may follow the last one after an equals sign. -/
def giveLetters (flags : List Flag) : List Char → Options → Except FlagError Options
  | [], o => .ok o
  | c :: rest, o =>
    match flags.find? (·.letter == some c) with
    | none => .error (.unknownLetter (c :: rest))
    | some flag =>
      match rest with
      | '=' :: v :: value => o.give flag (String.ofList (v :: value))
      | _ => do giveLetters flags rest (← o.give flag "true")

/-- Separates flags from other arguments. -/
def parseFrom (flags : List Flag) : List String → Options → Except FlagError Options
  | [], o => .ok o
  | argument :: rest, o =>
    match Shape.ofArgument argument with
    | .other => parseFrom flags rest (o.add argument)
    | .stop => .ok { o with arguments := o.arguments ++ rest }
    | .malformed => .error (.malformed argument)
    | .letters cs => do parseFrom flags rest (← giveLetters flags cs o)
    | .flag name value =>
      match flags.find? (·.name == name) with
      | none => .error (.unknown name)
      | some flag =>
        match value with
        | some value => do parseFrom flags rest (← o.give flag value)
        | none =>
          if flag.kind = .toggle then do parseFrom flags rest (← o.give flag "true")
          else match rest with
            | [] => .error (.needsValue name)
            | value :: rest => do parseFrom flags rest (← o.give flag value)

def parse (flags : List Flag) (arguments : List String) : Except FlagError Options := parseFrom flags arguments {}

end Forager.Command
