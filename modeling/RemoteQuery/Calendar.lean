import RemoteQuery.Text.Digits

/-!
# Calendar date-times

A date-time is a day of the proleptic Gregorian calendar and a time of day down to the nanosecond;
second 60 is a leap second. The years run from -262143 to 262142. Years of other than four digits
carry a sign.

In the text form a date and a time stand around a `T`. When it is read, white space may stand before
each number, before each of the separators and at the end, numbers may lack leading zeros, and
fraction digits after the ninth have no effect.
-/

namespace RemoteQuery

namespace Calendar

def isLeapYear (year : Int) : Bool := year % 4 = 0 && (year % 100 != 0 || year % 400 = 0)

def daysInMonth (year : Int) (month : Nat) : Nat :=
  match month with
  | 2 => if isLeapYear year then 29 else 28
  | 4 | 6 | 9 | 11 => 30
  | _ => 31

def isDay (year : Int) (month day : Nat) : Bool :=
  -262143 ≤ year && year ≤ 262142 && 1 ≤ month && month ≤ 12 && 1 ≤ day &&
    day ≤ daysInMonth year month

def isTime (hour minute second nanosecond : Nat) : Bool :=
  hour < 24 && minute < 60 && second ≤ 60 && nanosecond < 1000000000

end Calendar

structure DateTime where
  year : Int
  month : Nat
  day : Nat
  hour : Nat
  minute : Nat
  second : Nat
  nanosecond : Nat
  isDay : Calendar.isDay year month day = true := by decide
  isTime : Calendar.isTime hour minute second nanosecond = true := by decide
deriving DecidableEq

namespace DateTime

def yearText (year : Int) : List Char :=
  if 0 ≤ year ∧ year ≤ 9999 then Digits.padded 4 year.natAbs
  else (if year < 0 then '-' else '+') :: Digits.padded 4 year.natAbs

def secondsText (t : DateTime) : List Char :=
  yearText t.year ++ '-' :: (Digits.padded 2 t.month ++ '-' :: (Digits.padded 2 t.day ++
    'T' :: (Digits.padded 2 t.hour ++ ':' :: (Digits.padded 2 t.minute ++
      ':' :: Digits.padded 2 t.second))))

def fractionText (nanosecond : Nat) : List Char :=
  if nanosecond = 0 then []
  else if nanosecond % 1000000 = 0 then '.' :: Digits.padded 3 (nanosecond / 1000000)
  else if nanosecond % 1000 = 0 then '.' :: Digits.padded 6 (nanosecond / 1000)
  else '.' :: Digits.padded 9 nanosecond

def text (t : DateTime) : List Char := t.secondsText ++ fractionText t.nanosecond

def isWhiteSpace (c : Char) : Bool :=
  let n := c.toNat
  (9 ≤ n && n ≤ 13) || n == 0x20 || n == 0x85 || n == 0xA0 || n == 0x1680 ||
    (0x2000 ≤ n && n ≤ 0x200A) || n == 0x2028 || n == 0x2029 || n == 0x202F || n == 0x205F ||
    n == 0x3000

def skipSpace (cs : List Char) : List Char := cs.dropWhile isWhiteSpace

def readDigits (width : Nat) (cs : List Char) : Option (List Char × List Char) :=
  let digits := (cs.take width).takeWhile Char.isDigit
  if digits = [] then none else some (digits, cs.drop digits.length)

def readNumber (width : Nat) (cs : List Char) : Option (Nat × List Char) :=
  (readDigits width (skipSpace cs)).map fun (digits, rest) => (Nat.ofDigitChars 10 digits 0, rest)

/-- A year of at most four digits, or of any number of digits after a sign. -/
def readYear (cs : List Char) : Option (Int × List Char) :=
  match skipSpace cs with
  | '-' :: rest => (readDigits rest.length rest).map fun (digits, rest) =>
      (-(Nat.ofDigitChars 10 digits 0 : Int), rest)
  | '+' :: rest => (readDigits rest.length rest).map fun (digits, rest) =>
      ((Nat.ofDigitChars 10 digits 0 : Int), rest)
  | rest => (readDigits 4 rest).map fun (digits, rest) =>
      ((Nat.ofDigitChars 10 digits 0 : Int), rest)

def readMark (mark : Char) (cs : List Char) : Option (List Char) :=
  match skipSpace cs with
  | c :: rest => if c = mark then some rest else none
  | [] => none

def readFraction : List Char → Option (Nat × List Char)
  | '.' :: rest => do
    let (digits, rest) ← readDigits 9 rest
    let n := Nat.ofDigitChars 10 digits 0
    return (n * Nat.pow 10 (9 - digits.length), rest.dropWhile Char.isDigit)
  | cs => some (0, cs)

def read? (cs : List Char) : Option DateTime := do
  let (year, cs) ← readYear cs
  let cs ← readMark '-' cs
  let (month, cs) ← readNumber 2 cs
  let cs ← readMark '-' cs
  let (day, cs) ← readNumber 2 cs
  let cs ← readMark 'T' cs
  let (hour, cs) ← readNumber 2 cs
  let cs ← readMark ':' cs
  let (minute, cs) ← readNumber 2 cs
  let cs ← readMark ':' cs
  let (second, cs) ← readNumber 2 cs
  let (nanosecond, cs) ← readFraction cs
  if h : skipSpace cs = [] ∧ Calendar.isDay year month day ∧
      Calendar.isTime hour minute second nanosecond then
    some ⟨year, month, day, hour, minute, second, nanosecond, h.2.1, h.2.2⟩
  else none

end DateTime
end RemoteQuery
