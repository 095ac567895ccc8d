/-!
# SHA-1

The 160-bit digest of a byte sequence. The message is followed by a one bit, zeros and its length, cut into blocks
of sixteen words, and each block is stirred into five chaining words by eighty rounds.
-/

namespace Forager.Text.Sha1

set_option autoImplicit false

/-- The five chaining words. -/
structure State where
  a : UInt32
  b : UInt32
  c : UInt32
  d : UInt32
  e : UInt32

def State.start : State := ⟨0x67452301, 0xEFCDAB89, 0x98BADCFE, 0x10325476, 0xC3D2E1F0⟩

/-- `x` turned left by `n` bits, for `0 < n < 32`. -/
def rotate (x : UInt32) (n : UInt32) : UInt32 := (x <<< n) ||| (x >>> (32 - n))

/-- `n` as `count` bytes, the most significant first. -/
def bigEndian (count n : Nat) : List UInt8 :=
  (List.range count).map fun i => (n / Nat.pow 256 (count - 1 - i)).toUInt8

/-- The message with its padding, a whole number of blocks of 64 bytes. -/
def pad (message : List UInt8) : List UInt8 :=
  let zeros := (119 - message.length % 64) % 64
  message ++ 0x80 :: (List.replicate zeros 0 ++ bigEndian 8 (8 * message.length))

/-- The bytes as words of four, the most significant byte first. -/
def words : List UInt8 → List UInt32
  | a :: b :: c :: d :: rest =>
    ((a.toUInt32 <<< 24) ||| (b.toUInt32 <<< 16) ||| (c.toUInt32 <<< 8) ||| d.toUInt32) :: words rest
  | _ => []

/-- The message schedule: sixteen words of the block, and then each word from four earlier ones. -/
def schedule (block : List UInt32) : Array UInt32 :=
  (List.range 64).foldl (fun w i =>
    let word (k : Nat) : UInt32 := w.getD k 0
    w.push (rotate (word (i + 13) ^^^ word (i + 8) ^^^ word (i + 2) ^^^ word i) 1)) block.toArray

/-- The mixing function and the constant of round `i`. -/
def roundTerm (i : Nat) (s : State) : UInt32 :=
  if i < 20 then ((s.b &&& s.c) ||| (~~~s.b &&& s.d)) + 0x5A827999
  else if i < 40 then (s.b ^^^ s.c ^^^ s.d) + 0x6ED9EBA1
  else if i < 60 then ((s.b &&& s.c) ||| (s.b &&& s.d) ||| (s.c &&& s.d)) + 0x8F1BBCDC
  else (s.b ^^^ s.c ^^^ s.d) + 0xCA62C1D6

def round (i : Nat) (w : UInt32) (s : State) : State :=
  ⟨rotate s.a 5 + roundTerm i s + s.e + w, s.a, rotate s.b 30, s.c, s.d⟩

def compress (s : State) (block : List UInt32) : State :=
  let w := schedule block
  let t := (List.range 80).foldl (fun t i => round i (w.getD i 0) t) s
  ⟨s.a + t.a, s.b + t.b, s.c + t.c, s.d + t.d, s.e + t.e⟩

/-- The words in blocks of sixteen. -/
def blocks (ws : List UInt32) : List (List UInt32) :=
  (List.range (ws.length / 16)).map fun i => (ws.drop (16 * i)).take 16

def digest (message : List UInt8) : List UInt8 :=
  let s := (blocks (words (pad message))).foldl compress State.start
  [s.a, s.b, s.c, s.d, s.e].flatMap fun w => bigEndian 4 w.toNat

def hexByte (b : UInt8) : List Char :=
  [Nat.digitChar (b.toNat / 16), Nat.digitChar (b.toNat % 16)]

def hexDigest (message : List UInt8) : String :=
  String.ofList ((digest message).flatMap hexByte)

end Forager.Text.Sha1
