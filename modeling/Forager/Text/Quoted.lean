import Forager.Text.Printable

/-!
# Quoted text in messages

A text between double quotes. Printable characters stand for themselves, the quote and the backslash are escaped, a
few control characters have names, and every other character is written by its code point.
-/

namespace Forager.Text

set_option autoImplicit false

def hex (count n : Nat) : List Char :=
  ((List.range count).map fun i => Nat.digitChar (n / Nat.pow 16 i % 16)).reverse

def quotedChar (c : Char) : List Char :=
  if c = '"' then ['\\', '"']
  else if c = '\\' then ['\\', '\\']
  else if isPrintable c then [c]
  else if c.toNat = 0x07 then ['\\', 'a']
  else if c.toNat = 0x08 then ['\\', 'b']
  else if c.toNat = 0x0C then ['\\', 'f']
  else if c.toNat = 0x0A then ['\\', 'n']
  else if c.toNat = 0x0D then ['\\', 'r']
  else if c.toNat = 0x09 then ['\\', 't']
  else if c.toNat = 0x0B then ['\\', 'v']
  else if c.toNat < 0x80 then '\\' :: 'x' :: hex 2 c.toNat
  else if c.toNat < 0x10000 then '\\' :: 'u' :: hex 4 c.toNat
  else '\\' :: 'U' :: hex 8 c.toNat

def quote (text : String) : String :=
  String.ofList ('"' :: (text.toList.flatMap quotedChar ++ ['"']))

end Forager.Text
