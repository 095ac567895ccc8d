import Forager.Number.Read

/-!
# Scalars in YAML texts

How the texts of plain scalars, quoted scalars and block scalars are read. Line breaks inside plain and quoted scalars
are folded: a single one reads as a space, and of several the first is dropped. Every reader takes the remaining
characters and gives the text with what follows it.
-/

namespace Forager.Yaml

set_option autoImplicit false

/-- Whether a character is a space or a tab. -/
def isBlank (c : Char) : Bool := c = ' ' || c = '\t'

/-- Whether the characters begin with a blank or a line break, or are at the end. -/
def startsBlank : List Char → Bool
  | [] => true
  | c :: _ => isBlank c || c = '\n'

/-- Whether a line begins with a mark between documents. -/
def startsMark : List Char → Bool
  | '-' :: '-' :: '-' :: rest => startsBlank rest
  | '.' :: '.' :: '.' :: rest => startsBlank rest
  | _ => false

/-- Whether a character has a meaning of its own inside brackets. -/
def isFlowMark (c : Char) : Bool := c = ',' || c = '[' || c = ']' || c = '{' || c = '}'

/-- What so many line breaks read as. -/
def folded (breaks : Nat) : List Char := if breaks = 1 then [' '] else List.replicate (breaks - 1) '\n'

/-! ## Plain scalars -/

/-- Whether a plain scalar ends here, which a colon before a blank and, inside brackets, a mark brings about. -/
def endsPlain (flow : Bool) (c : Char) (rest : List Char) : Bool :=
  (c = ':' && startsBlank rest) || (flow && (isFlowMark c || (c = '?' && startsBlank rest)))

/-- The part of a plain scalar on one line, after the blanks `pending`. A number sign after a blank ends it. -/
def plainLine (flow : Bool) : (pending : List Char) → List Char → List Char × List Char
  | _, [] => ([], [])
  | pending, c :: rest =>
    if c = '\n' then ([], c :: rest)
    else if isBlank c then plainLine flow (pending ++ [c]) rest
    else if endsPlain flow c rest || (c = '#' && !pending.isEmpty) then ([], c :: rest)
    else
      let (text, after) := plainLine flow [] rest
      (pending ++ c :: text, after)

/-- Whether a plain scalar may begin with a character. -/
def beginsPlain (flow : Bool) : List Char → Bool
  | [] => false
  | c :: rest =>
    if isBlank c || c = '\n' then false
    else if c = '-' then !startsBlank rest
    else if c = '?' || c = ':' then !flow && !startsBlank rest
    else !(isFlowMark c || ['#', '&', '*', '!', '|', '>', '\'', '"', '%', '@', '\x60'].contains c)

/-- Skips blank lines. The result is the number of line breaks, the column of what follows, and what follows. A tab
may not stand where a line is indented too little. -/
def skipLines (flow : Bool) (indent : Int) : (breaks column : Nat) → List Char → Option (Nat × Nat × List Char)
  | breaks, column, ' ' :: rest => skipLines flow indent breaks (column + 1) rest
  | breaks, column, '\t' :: rest =>
    if !flow && column ≤ indent then none else skipLines flow indent breaks (column + 1) rest
  | breaks, _, '\n' :: rest => skipLines flow indent (breaks + 1) 0 rest
  | breaks, column, rest => some (breaks, column, rest)

/-- A plain scalar, whose further lines are indented by more than `indent`. -/
def plain (flow : Bool) (indent : Int) : (fuel : Nat) → List Char → Option (List Char × List Char)
  | 0, _ => none
  | fuel + 1, cs =>
    let (text, rest) := plainLine flow [] cs
    match rest with
    | '\n' :: _ =>
      match skipLines flow indent 0 0 rest with
      | none => none
      | some (breaks, column, next) =>
        if (!flow && column ≤ indent) || (column = 0 && startsMark next) || next.head? = some '#' then
          some (text, rest)
        else if (plainLine flow [] next).1.isEmpty then some (text, rest)
        else (plain flow indent fuel next).map fun (more, after) => (text ++ folded breaks ++ more, after)
    | _ => some (text, rest)

/-! ## Quoted scalars -/

def trimEnd (text : List Char) : List Char := (text.reverse.dropWhile isBlank).reverse

/-- Skips blanks and line breaks inside quotes and counts the breaks. No line may begin with a mark. -/
def skipQuoted : (breaks : Nat) → List Char → Option (Nat × List Char)
  | breaks, '\n' :: rest => if startsMark rest then none else skipQuoted (breaks + 1) rest
  | breaks, c :: rest => if isBlank c then skipQuoted breaks rest else some (breaks, c :: rest)
  | _, [] => none

/-- What follows the opening single quote. A quote is written twice. -/
def singleQuoted : (fuel : Nat) → (text : List Char) → List Char → Option (List Char × List Char)
  | 0, _, _ => none
  | fuel + 1, text, cs =>
    match cs with
    | '\'' :: '\'' :: rest => singleQuoted fuel (text ++ ['\'']) rest
    | '\'' :: rest => some (text, rest)
    | '\n' :: _ => (skipQuoted 0 cs).bind fun (breaks, rest) => singleQuoted fuel (trimEnd text ++ folded breaks) rest
    | c :: rest => singleQuoted fuel (text ++ [c]) rest
    | [] => none

/-- The characters that a letter stands for after a backslash. -/
def escapes : List (Char × Char) :=
  [('0', '\x00'), ('a', '\x07'), ('b', '\x08'), ('t', '\t'), ('\t', '\t'), ('n', '\n'), ('v', '\x0B'), ('f', '\x0C'),
    ('r', '\r'), ('e', '\x1B'), (' ', ' '), ('"', '"'), ('\'', '\''), ('/', '/'), ('\\', '\\'), ('N', '\u0085'),
    ('_', '\u00A0'), ('L', '\u2028'), ('P', '\u2029')]

/-- How many hexadecimal digits follow a letter after a backslash. -/
def codeLength? (letter : Char) : Option Nat :=
  if letter = 'x' then some 2 else if letter = 'u' then some 4 else if letter = 'U' then some 8 else none

/-- The character with a code, if there is one. -/
def charOfCode? (code : Nat) : Option Char :=
  if code.isValidChar then some (Char.ofNat code) else none

def hexValue? (digits : List Char) : Option Nat :=
  digits.foldlM (fun n c => (Number.digitValue? c).map (n * 16 + ·)) 0

/-- What follows the opening double quote. `kept` is the part of the text that no line break can trim. -/
def doubleQuoted : (fuel : Nat) → (kept text : List Char) → List Char → Option (List Char × List Char)
  | 0, _, _, _ => none
  | fuel + 1, kept, text, cs =>
    match cs with
    | '"' :: rest => some (kept ++ text, rest)
    | '\\' :: '\n' :: rest =>
      if startsMark rest then none
      else (skipQuoted 0 rest).bind fun (breaks, rest) =>
        doubleQuoted fuel (kept ++ text ++ List.replicate breaks '\n') [] rest
    | '\\' :: letter :: rest =>
      match codeLength? letter with
      | some n =>
        if rest.length < n then none
        else ((hexValue? (rest.take n)).bind charOfCode?).bind fun c =>
          doubleQuoted fuel (kept ++ text ++ [c]) [] (rest.drop n)
      | none =>
        match escapes.find? (·.1 == letter) with
        | some (_, c) => doubleQuoted fuel (kept ++ text ++ [c]) [] rest
        | none => none
    | '\n' :: _ => (skipQuoted 0 cs).bind fun (breaks, rest) =>
        doubleQuoted fuel (kept ++ trimEnd text ++ folded breaks) [] rest
    | c :: rest => doubleQuoted fuel kept (text ++ [c]) rest
    | [] => none

/-! ## Block scalars -/

/-- What is done with line breaks at the end of a block scalar. -/
inductive Chomp where
  | strip
  | clip
  | keep
  deriving DecidableEq, Repr

/-- The signs in the header of a block scalar: a chomping sign and an indentation, each at most once. -/
def blockHeader : (chomp : Option Chomp) → (width : Option Nat) → List Char →
    Option (Option Chomp × Option Nat × List Char)
  | chomp, width, [] => some (chomp, width, [])
  | chomp, width, c :: rest =>
    if c = '+' || c = '-' then
      if chomp.isSome then none else blockHeader (some (if c = '+' then .keep else .strip)) width rest
    else if c.isDigit then
      if width.isSome || c = '0' then none else blockHeader chomp (some (c.toNat - '0'.toNat)) rest
    else some (chomp, width, c :: rest)

/-- What follows the rest of a line, which may hold a comment after a blank. The line break stays. -/
def restOfLine : (comment blank : Bool) → List Char → Option (List Char)
  | _, _, [] => some []
  | comment, blank, c :: rest =>
    if c = '\n' then some (c :: rest)
    else if comment then restOfLine true true rest
    else if isBlank c then restOfLine false true rest
    else if c = '#' && blank then restOfLine true true rest
    else none

def linesOf : List Char → List (List Char)
  | [] => [[]]
  | c :: rest =>
    match linesOf rest with
    | line :: more => if c = '\n' then [] :: line :: more else (c :: line) :: more
    | [] => [[c]]

def indentOf (line : List Char) : Nat := (line.takeWhile (· == ' ')).length

def isEmptyLine (line : List Char) : Bool := line.all (· == ' ')

/-- The indentation of a block scalar, at least `least`: that of its first line that is not empty, or of a longer
empty one before it. -/
def detectIndent (least : Nat) : (longest : Nat) → List (List Char) → Nat
  | longest, [] => max longest least
  | longest, line :: rest =>
    if isEmptyLine line then detectIndent least (max longest line.length) rest
    else max (max longest (indentOf line)) least

/-- The text of the lines of a block scalar. `breaks` line breaks are pending, and `indented` tells whether the last
line began with a blank. -/
def blockText (fold : Bool) (width : Nat) : (first indented : Bool) → (breaks : Nat) → List (List Char) →
    List Char × Nat × List (List Char)
  | _, _, breaks, [] => ([], breaks, [])
  | first, indented, breaks, line :: rest =>
    if rest.isEmpty && line.isEmpty then ([], breaks, [line])
    else if isEmptyLine line && line.length ≤ width then blockText fold width first indented (breaks + 1) rest
    else if indentOf line < width then ([], breaks, line :: rest)
    else
      let content := line.drop width
      let blank := content.head?.any isBlank
      let lead :=
        if first then List.replicate breaks '\n'
        else if fold && !indented && !blank then folded breaks
        else List.replicate breaks '\n'
      let (text, left, after) := blockText fold width false blank (if rest.isEmpty then 0 else 1) rest
      (lead ++ content ++ text, left, after)

/-- A block scalar inside `indent`, after the sign that opens it. -/
def blockScalar (fold : Bool) (indent : Int) (cs : List Char) : Option (List Char × List Char) := do
  let (chomp, width, cs) ← blockHeader none none cs
  let cs ← restOfLine false (startsBlank cs) cs
  match cs with
  | [] => return ([], [])
  | _ :: body =>
    let lines := linesOf body
    let least := max (indent + 1).toNat 1
    let width := match width with
      | some n => (max indent 0).toNat + n
      | none => detectIndent least 0 lines
    let (text, breaks, after) := blockText fold width true false 0 lines
    let ending := match chomp.getD .clip with
      | .strip => 0
      | .clip => if text.isEmpty then 0 else min breaks 1
      | .keep => breaks
    let rest := (after.intersperse ['\n']).flatten
    return (text ++ List.replicate ending '\n', if after.isEmpty then [] else '\n' :: rest)

end Forager.Yaml
