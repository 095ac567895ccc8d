/-!
# Text as bytes

`decode` reads a byte sequence as UTF-8 and puts U+FFFD in the place of every byte that begins no character.
Main statement: `decode_toUTF8`, the bytes of a text read back as that text.
-/

namespace Forager.Text

set_option autoImplicit false

/-- The character that stands in for bytes that are no text. -/
def replacement : Char := '\uFFFD'

def isTail (b : UInt8) : Bool := 0x80 ≤ b && b ≤ 0xBF

/-- The six payload bits of a continuation byte. -/
def tailBits (b : UInt8) : Nat := b.toNat % 64

/-- The least and the greatest second byte that a character beginning with `lead` may have. -/
def secondRange (lead : UInt8) : UInt8 × UInt8 :=
  if lead = 0xE0 then (0xA0, 0xBF)
  else if lead = 0xED then (0x80, 0x9F)
  else if lead = 0xF0 then (0x90, 0xBF)
  else if lead = 0xF4 then (0x80, 0x8F)
  else (0x80, 0xBF)

def isSecond (lead b : UInt8) : Bool := (secondRange lead).1 ≤ b && b ≤ (secondRange lead).2

/-- The characters of a byte sequence, U+FFFD for each byte that begins no character. -/
def salvage : List UInt8 → List Char
  | [] => []
  | a :: rest =>
    if a < 0x80 then (Char.ofNat a.toNat) :: salvage rest
    else match rest with
      | b :: rest₁ =>
        if 0xC2 ≤ a && a ≤ 0xDF && isTail b then
          (Char.ofNat (a.toNat % 32 * 64 + tailBits b)) :: salvage rest₁
        else match rest₁ with
          | c :: rest₂ =>
            if 0xE0 ≤ a && a ≤ 0xEF && isSecond a b && isTail c then
              (Char.ofNat (a.toNat % 16 * 4096 + tailBits b * 64 + tailBits c)) :: salvage rest₂
            else match rest₂ with
              | d :: rest₃ =>
                if 0xF0 ≤ a && a ≤ 0xF4 && isSecond a b && isTail c && isTail d then
                  (Char.ofNat (a.toNat % 8 * 262144 + tailBits b * 4096 + tailBits c * 64 + tailBits d)) ::
                    salvage rest₃
                else replacement :: salvage (b :: c :: d :: rest₃)
              | [] => replacement :: salvage [b, c]
          | [] => replacement :: salvage [b]
      | [] => [replacement]
termination_by bytes => bytes.length

/-- The text of a byte sequence, with U+FFFD for each byte that begins no character. -/
def decode (bytes : ByteArray) : String :=
  match String.fromUTF8? bytes with
  | some text => text
  | none => String.ofList (salvage bytes.toList)

theorem fromUTF8?_toUTF8 (text : String) : String.fromUTF8? text.toUTF8 = some text := by
  simp [String.fromUTF8?, String.fromUTF8, text.isValidUTF8]

@[simp] theorem decode_toUTF8 (text : String) : decode text.toUTF8 = text := by
  rw [decode, fromUTF8?_toUTF8]

def bytes (text : String) : List UInt8 := text.toUTF8.toList

def width (text : String) : Nat := text.utf8ByteSize

end Forager.Text
