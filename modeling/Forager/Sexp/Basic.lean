import Forager.Text.Space

/-!
# S-expressions

An S-expression is an atom or a list of S-expressions. `print` writes one on a single line, `pretty` over several
lines where a list is long and holds lists.
-/

namespace Forager

set_option autoImplicit false

inductive Sexp where
  | atom (text : String)
  | list (items : List Sexp)
  deriving Repr, Inhabited

namespace Sexp

mutual

/-- Whether two S-expressions are the same tree. -/
def same : Sexp → Sexp → Bool
  | .atom a, .atom b => a == b
  | .list as, .list bs => sameAll as bs
  | .atom _, .list _ => false
  | .list _, .atom _ => false

def sameAll : List Sexp → List Sexp → Bool
  | [], [] => true
  | a :: as, b :: bs => same a b && sameAll as bs
  | [], _ :: _ => false
  | _ :: _, [] => false

end

mutual

theorem same_iff : ∀ a b : Sexp, same a b = true ↔ a = b
  | .atom a, .atom b => by simp [same]
  | .list as, .list bs => by simp [same, sameAll_iff as bs]
  | .atom _, .list _ => by simp [same]
  | .list _, .atom _ => by simp [same]

theorem sameAll_iff : ∀ as bs : List Sexp, sameAll as bs = true ↔ as = bs
  | [], [] => by simp [sameAll]
  | a :: as, b :: bs => by simp [sameAll, same_iff a b, sameAll_iff as bs]
  | [], _ :: _ => by simp [sameAll]
  | _ :: _, [] => by simp [sameAll]

end

instance : DecidableEq Sexp := fun a b => decidable_of_iff _ (same_iff a b)

def isList : Sexp → Bool
  | .atom _ => false
  | .list _ => true

def items : Sexp → List Sexp
  | .atom _ => []
  | .list items => items

/-- The text of an atom, nothing for a list. -/
def text : Sexp → String
  | .atom text => text
  | .list _ => ""

/-- The text of the atom that leads a list, nothing if none does. -/
def head : Sexp → String
  | .list (.atom text :: _) => text
  | _ => ""

def args (t : Sexp) : List Sexp := t.items.tail

/-! ## One line -/

mutual

/-- The characters of a tree on one line, single spaces between the members of a list. -/
def chars : Sexp → List Char
  | .atom text => text.toList
  | .list items => '(' :: charsOf items

/-- The characters of the members of a list, up to the closing parenthesis. -/
def charsOf : List Sexp → List Char
  | [] => [')']
  | item :: rest => chars item ++ charsAfter rest

/-- The characters of the members that follow another one. -/
def charsAfter : List Sexp → List Char
  | [] => [')']
  | item :: rest => ' ' :: (chars item ++ charsAfter rest)

end

def print (t : Sexp) : String := String.ofList t.chars

/-! ## Several lines -/

/-- The greatest width of a line on which a list that holds lists is kept whole. -/
def lineWidth : Nat := 72

def allAtoms (items : List Sexp) : Bool := items.all (!·.isList)

def newline (depth : Nat) : List Char := '\n' :: List.replicate (2 * depth) ' '

def byteWidth (cs : List Char) : Nat := cs.foldr (fun c n => c.utf8Size + n) 0

mutual

/-- The characters of a tree whose first line is indented by `depth` levels. -/
def layout (depth : Nat) : Sexp → List Char
  | .atom text => text.toList
  | .list items =>
    let line := chars (.list items)
    if byteWidth line + 2 * depth ≤ lineWidth || allAtoms items then line
    else '(' :: layoutHead depth true items

/-- The members of a list, of which the atoms before the first list stay on the line of the opening parenthesis. -/
def layoutHead (depth : Nat) (first : Bool) : List Sexp → List Char
  | [] => [')']
  | .atom text :: rest => (if first then [] else [' ']) ++ text.toList ++ layoutHead depth false rest
  | .list items :: rest => newline (depth + 1) ++ layout (depth + 1) (.list items) ++ layoutTail depth rest

/-- The members after the first list, each on a line of its own. -/
def layoutTail (depth : Nat) : List Sexp → List Char
  | [] => [')']
  | item :: rest => newline (depth + 1) ++ layout (depth + 1) item ++ layoutTail depth rest

end

/-- The tree over several lines, with a newline at the end. -/
def pretty (t : Sexp) : String := String.ofList (layout 0 t ++ ['\n'])

end Sexp

end Forager
