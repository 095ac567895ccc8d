/-!
# White space

The characters that separate words: the ASCII blanks, the next-line and no-break controls of Latin-1, and the space
separators of Unicode.
-/

namespace Forager.Text

set_option autoImplicit false

def isSpace (c : Char) : Bool :=
  let n := c.toNat
  (0x09 ≤ n && n ≤ 0x0D) || n == 0x20 || n == 0x85 || n == 0xA0 || n == 0x1680 ||
    (0x2000 ≤ n && n ≤ 0x200A) || n == 0x2028 || n == 0x2029 || n == 0x202F || n == 0x205F || n == 0x3000

end Forager.Text
