/-!
# Natural order of names

Names are compared piece by piece. A run of digits is one piece and counts by its value, runs of one value by the
number of leading zeros; every other byte is a piece of its own. So `2.sexp` comes before `10.sexp`.
-/

namespace Forager.Text.Natural

set_option autoImplicit false

def isDigit (b : UInt8) : Bool := 0x30 ≤ b && b ≤ 0x39

inductive Piece where
  /-- A longest run of digits, by its first digit and the others. -/
  | number (first : UInt8) (others : List UInt8)
  /-- A byte that is no digit. -/
  | other (byte : UInt8)
  deriving DecidableEq, Repr

def pieces : List UInt8 → List Piece
  | [] => []
  | b :: rest =>
    if isDigit b then
      match pieces rest with
      | .number c others :: more => .number b (c :: others) :: more
      | more => .number b [] :: more
    else .other b :: pieces rest

/-- The digits of a run from the first that is not zero. -/
def significant (run : List UInt8) : List UInt8 := run.dropWhile (· == 0x30)

/-- The order of byte sequences of one length. -/
def bytesLess : List UInt8 → List UInt8 → Bool
  | [], [] => false
  | [], _ :: _ => true
  | _ :: _, [] => false
  | a :: as, b :: bs => if a = b then bytesLess as bs else a < b

/-- The order of digit runs: by value, which is the number of significant digits and then the digits, and then by
length. -/
def runLess (m n : List UInt8) : Bool :=
  if (significant m).length ≠ (significant n).length then (significant m).length < (significant n).length
  else if significant m ≠ significant n then bytesLess (significant m) (significant n)
  else m.length < n.length

/-- The order of pieces. A run of digits and another byte compare by their first bytes. -/
def Piece.less : Piece → Piece → Bool
  | .number a as, .number b bs => runLess (a :: as) (b :: bs)
  | .number a _, .other b => a < b
  | .other a, .number b _ => a < b
  | .other a, .other b => a < b

/-- The order of piece sequences: the first difference decides, and a sequence comes before its extensions. -/
def piecesLess : List Piece → List Piece → Bool
  | [], [] => false
  | [], _ :: _ => true
  | _ :: _, [] => false
  | p :: ps, q :: qs => if p = q then piecesLess ps qs else p.less q

/-- The natural order of names given by their bytes. -/
def less (a b : List UInt8) : Bool := piecesLess (pieces a) (pieces b)

def sort (names : List String) : List String :=
  names.mergeSort (fun a b => !less b.toUTF8.toList a.toUTF8.toList)

end Forager.Text.Natural
