import Forager.Sexp.Scan

/-!
# Reading S-expressions

`parse` reads the one list that a text holds.
-/

namespace Forager.Sexp

set_option autoImplicit false

/-- Lists being read, the innermost first, each with its members so far in reverse. -/
abbrev Open := List (List Sexp)

/-- Adds a tree to the innermost open list. -/
def Open.add (t : Sexp) : Open → Open
  | items :: outer => (t :: items) :: outer
  | [] => []

/-- The tree that the tokens complete, given the open lists. -/
def build : Open → List Token → Option Sexp
  | _, [] => none
  | stack, .opening :: rest => build ([] :: stack) rest
  | stack, .atom text :: rest => build (Open.add (.atom text) stack) rest
  | [], .closing :: _ => none
  | [items], .closing :: _ => some (.list items.reverse)
  | items :: outer :: stack, .closing :: rest => build ((.list items.reverse :: outer) :: stack) rest

/-- Reads a text that holds one list. -/
def parse (text : String) : Except ParseError Sexp :=
  let s := scan text
  match s.fault with
  | some e => .error e
  | none =>
    match build [] s.tokens with
    | some t => .ok t
    | none => .error ⟨.empty, text.utf8ByteSize⟩

end Forager.Sexp
