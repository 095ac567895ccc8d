/-!
# Timestamps

A timestamp is a moment as it is written: the date and time of day at some offset from universal time. `instant` is
the moment itself, `text` writes a timestamp and `parse?` reads it.
-/

namespace Forager

set_option autoImplicit false

structure Date where
  year : Int
  month : Nat
  day : Nat
  deriving DecidableEq, Repr

namespace Date

def isLeap (year : Int) : Bool := year % 4 = 0 && (year % 100 ≠ 0 || year % 400 = 0)

def monthLength (year : Int) (month : Nat) : Nat :=
  if month = 2 then (if isLeap year then 29 else 28)
  else if month = 4 || month = 6 || month = 9 || month = 11 then 30 else 31

/-- The days of a year before a month. -/
def daysBefore (year : Int) (month : Nat) : Nat :=
  (List.range (month - 1)).foldr (fun i n => monthLength year (i + 1) + n) 0

/-- The number of a day, counted without gaps; the first day of the year 1 is day 1. -/
def number (d : Date) : Int :=
  let y := d.year - 1
  365 * y + y / 4 - y / 100 + y / 400 + daysBefore d.year d.month + d.day

def next (d : Date) : Date :=
  if d.day < monthLength d.year d.month then { d with day := d.day + 1 }
  else if d.month < 12 then ⟨d.year, d.month + 1, 1⟩
  else ⟨d.year + 1, 1, 1⟩

def previous (d : Date) : Date :=
  if 1 < d.day then { d with day := d.day - 1 }
  else if 1 < d.month then ⟨d.year, d.month - 1, monthLength d.year (d.month - 1)⟩
  else ⟨d.year - 1, 12, 31⟩

/-- The day so many days later, or earlier if the number is negative. -/
def shift (d : Date) : Int → Date
  | .ofNat n => Nat.repeat next n d
  | .negSucc n => Nat.repeat previous (n + 1) d

end Date

/-- A moment as it is written at an offset, in minutes, from universal time. -/
structure Timestamp where
  date : Date
  hour : Nat
  minute : Nat
  second : Nat
  nanos : Nat := 0
  offset : Int := 0
  deriving DecidableEq, Repr

namespace Timestamp

/-- The timestamp that stands for none. -/
def zero : Timestamp := ⟨⟨1, 1, 1⟩, 0, 0, 0, 0, 0⟩

def secondOfDay (t : Timestamp) : Int := (t.hour * 60 + t.minute) * 60 + t.second

/-- The moment itself, in nanoseconds of universal time. -/
def instant (t : Timestamp) : Int :=
  (t.date.number * 86400 + t.secondOfDay - t.offset * 60) * 1000000000 + t.nanos

/-- Whether this is no time at all, as far as its moment tells. -/
def isZero (t : Timestamp) : Bool := t.instant = zero.instant

/-- The time of day after so many seconds, on the same day or on one before or after it. -/
def ofSeconds (date : Date) (seconds : Int) (nanos : Nat) (offset : Int) : Timestamp :=
  let rest := (seconds % 86400).toNat
  ⟨date.shift (seconds / 86400), rest / 3600, rest / 60 % 60, rest % 60, nanos, offset⟩

def utc (t : Timestamp) : Timestamp := ofSeconds t.date (t.secondOfDay - t.offset * 60) t.nanos 0

def addSeconds (t : Timestamp) (seconds : Int) : Timestamp :=
  ofSeconds t.date (t.secondOfDay + seconds) t.nanos t.offset

/-! ## Writing -/

/-- The decimal digits of a number, filled up with zeros to a width. -/
def padded (width n : Nat) : List Char :=
  let digits := Nat.toDigits 10 n
  List.replicate (width - digits.length) '0' ++ digits

/-- A year, of at least four digits. -/
def yearText (year : Int) : List Char := if year < 0 then '-' :: padded 4 year.natAbs else padded 4 year.natAbs

/-- The fraction of a second, without zeros at its end. -/
def fractionText (nanos : Nat) : List Char :=
  if nanos = 0 then [] else '.' :: ((padded 9 nanos).reverse.dropWhile (· == '0')).reverse

def offsetText (offset : Int) : List Char :=
  if offset = 0 then ['Z']
  else (if offset < 0 then '-' else '+') :: (padded 2 (offset.natAbs / 60) ++ ':' :: padded 2 (offset.natAbs % 60))

/-- The timestamp from the year to the offset. -/
def text (t : Timestamp) : String :=
  String.ofList (yearText t.date.year ++ '-' :: (padded 2 t.date.month ++ '-' :: (padded 2 t.date.day ++
    'T' :: (padded 2 t.hour ++ ':' :: (padded 2 t.minute ++ ':' :: (padded 2 t.second ++
    (fractionText t.nanos ++ offsetText t.offset)))))))

/-- Whether the text has a year of four digits and an offset of less than a day. -/
def isStandard (t : Timestamp) : Bool :=
  0 ≤ t.date.year && t.date.year ≤ 9999 && t.offset.natAbs < 24 * 60

/-! ## Reading -/

def digit? (c : Char) : Option Nat := if c.isDigit then some (c.toNat - '0'.toNat) else none

def digits? : List Char → Option Nat
  | [] => some 0
  | cs => cs.foldlM (fun n c => (digit? c).map (n * 10 + ·)) 0

/-- A number of exactly `count` digits, and what follows. -/
def fixed? (count : Nat) (cs : List Char) : Option (Nat × List Char) :=
  if cs.length < count then none else (digits? (cs.take count)).map fun n => (n, cs.drop count)

/-- A number of one or two digits, and what follows. -/
def short? (cs : List Char) : Option (Nat × List Char) := fixed? 2 cs <|> fixed? 1 cs

/-- What follows a character that must come next. -/
def expect? (c : Char) : List Char → Option (List Char)
  | d :: rest => if d = c then some rest else none
  | [] => none

/-- The nanoseconds of a fraction, if there is one, and what follows. Digits after the ninth do not count. -/
def fraction? : List Char → Option (Nat × List Char)
  | c :: d :: rest =>
    if (c = '.' || c = ',') && d.isDigit then
      let digits := (d :: rest).takeWhile Char.isDigit
      let counted := digits.take 9
      (digits? (counted ++ List.replicate (9 - counted.length) '0')).map fun n =>
        (n, (d :: rest).dropWhile Char.isDigit)
    else some (0, c :: d :: rest)
  | cs => some (0, cs)

/-- The offset at the end. A day or an hour may be written in full. -/
def offset? : List Char → Option Int
  | ['Z'] => some 0
  | sign :: rest => do
    let (hours, rest) ← fixed? 2 rest
    let rest ← expect? ':' rest
    let (minutes, rest) ← fixed? 2 rest
    if !rest.isEmpty || hours > 24 || minutes > 60 then none
    else if sign = '+' then some (hours * 60 + minutes)
    else if sign = '-' then some (-(hours * 60 + minutes))
    else none
  | [] => none

def ofChars? (cs : List Char) : Option Timestamp := do
  let (year, cs) ← fixed? 4 cs
  let cs ← expect? '-' cs
  let (month, cs) ← fixed? 2 cs
  let cs ← expect? '-' cs
  let (day, cs) ← fixed? 2 cs
  let cs ← expect? 'T' cs
  let (hour, cs) ← short? cs
  let cs ← expect? ':' cs
  let (minute, cs) ← fixed? 2 cs
  let cs ← expect? ':' cs
  let (second, cs) ← fixed? 2 cs
  let (nanos, cs) ← fraction? cs
  let offset ← offset? cs
  if month < 1 || 12 < month || day < 1 || Date.monthLength year month < day ||
      23 < hour || 59 < minute || 59 < second then none
  else some ⟨⟨year, month, day⟩, hour, minute, second, nanos, offset⟩

def parse? (text : String) : Option Timestamp := ofChars? text.toList

end Timestamp

end Forager
