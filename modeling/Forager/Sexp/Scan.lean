import Forager.Sexp.Basic

/-!
# Tokens

`scan` cuts a text into parentheses and atoms and checks that it is one parenthesized expression. It stops at the
first character that no expression can have there; what was cut off before it is kept, since a reader may already
have acted on it. Offsets count bytes.
-/

namespace Forager.Sexp

set_option autoImplicit false

inductive Token where
  | opening
  | closing
  | atom (text : String)
  deriving DecidableEq, Repr

inductive Fault where
  | unterminated
  | outside
  | empty
  | notText
  deriving DecidableEq, Repr

structure ParseError where
  fault : Fault
  offset : Nat
  deriving DecidableEq, Repr

def Fault.message : Fault → String
  | .unterminated => "expression not terminated"
  | .outside => "content outside of expression"
  | .empty => "no expression found"
  | .notText => "invalid UTF-8"

def ParseError.message (e : ParseError) : String :=
  s!"sexp: {e.fault.message} at offset {e.offset}"

/-- The tokens of a text up to its first fault. -/
structure Scan where
  tokens : List Token
  fault : Option ParseError
  deriving DecidableEq, Repr

/-- Puts tokens in front. -/
def Scan.after (tokens : List Token) (s : Scan) : Scan := { s with tokens := tokens ++ s.tokens }

/-- The atom that ends here, whose characters were collected in reverse. -/
def flush (pending : List Char) : List Token :=
  if pending.isEmpty then [] else [.atom (String.ofList pending.reverse)]

/-- Scans the characters from byte `offset` on, `depth` lists being open. `found` tells whether an expression was
begun, and `pending` holds the characters of the atom being read, in reverse. -/
def scanFrom (offset depth : Nat) (found : Bool) (pending : List Char) : List Char → Scan
  | [] =>
    if 0 < depth then ⟨[], some ⟨.unterminated, offset⟩⟩
    else if found then ⟨[], none⟩
    else ⟨[], some ⟨.empty, offset⟩⟩
  | c :: rest =>
    let next := offset + c.utf8Size
    if c = '(' then
      if depth = 0 && found then ⟨[], some ⟨.outside, offset⟩⟩
      else (scanFrom next (depth + 1) true [] rest).after (flush pending ++ [.opening])
    else if c = ')' then
      if depth = 0 then ⟨[], some ⟨.outside, offset⟩⟩
      else (scanFrom next (depth - 1) found [] rest).after (flush pending ++ [.closing])
    else if Text.isSpace c then (scanFrom next depth found [] rest).after (flush pending)
    else if c = '\uFFFD' then ⟨[], some ⟨.notText, offset⟩⟩
    else if depth = 0 then ⟨[], some ⟨.outside, offset⟩⟩
    else scanFrom next depth found (c :: pending) rest

def scan (text : String) : Scan := scanFrom 0 0 false [] text.toList

end Forager.Sexp
