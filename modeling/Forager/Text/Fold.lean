/-!
# Matching words without regard to case

`fold` sends every letter to the small ASCII letter it is a case variant of. Besides the capitals, two characters
outside ASCII have such a letter: the long s and the Kelvin sign.
-/

namespace Forager.Text

set_option autoImplicit false

/-- The small ASCII letter that `c` is a case variant of, or `c` itself. -/
def foldChar (c : Char) : Char :=
  if c = '\u017F' then 's' else if c = 'K' then 'k' else c.toLower

def fold (word : String) : List Char := word.toList.map foldChar

/-- Whether two words, one of them in ASCII, differ in case at most. -/
def sameFolded (a b : String) : Bool := fold a == fold b

end Forager.Text
