import Statechart.Instant

/-!
# Reading instants

A relaxed form of RFC 3339: blanks may stand before the fields, and fields may lack their leading zeros. The time zone
is `Z`, `UTC` or an offset of hours and minutes.
-/

namespace Statechart.Instant

/-! ## Blanks and numbers -/

def isBlank (c : Char) : Bool :=
  let n := c.toNat
  (9 ≤ n && n ≤ 13) || n == 0x20 || n == 0x85 || n == 0xA0 || n == 0x1680 || (0x2000 ≤ n && n ≤ 0x200A) ||
    n == 0x2028 || n == 0x2029 || n == 0x202F || n == 0x205F || n == 0x3000

def skipBlanks (s : List Char) : List Char := s.dropWhile isBlank

/-- The digits at the start, of which there must be some; at most `limit` of them where there is a limit. -/
def readDigits (limit : Option Nat) (s : List Char) : Option (List Char × List Char) :=
  let all := s.takeWhile Char.isDigit
  let digits := (limit.map all.take).getD all
  if digits.isEmpty then none else some (digits, s.drop digits.length)

/-- A number of one or two digits, after blanks. -/
def readField (s : List Char) : Option (Nat × List Char) := do
  let (digits, rest) ← readDigits (some 2) (skipBlanks s)
  return (Nat.ofDigitChars 10 digits 0, rest)

/-- A year of at most four digits, or of any number of digits after a sign. -/
def readYear (s : List Char) : Option (Int × List Char) :=
  match skipBlanks s with
  | '-' :: s => (readDigits none s).map fun (digits, rest) => (-(Nat.ofDigitChars 10 digits 0 : Int), rest)
  | '+' :: s => (readDigits none s).map fun (digits, rest) => ((Nat.ofDigitChars 10 digits 0 : Int), rest)
  | s => (readDigits (some 4) s).map fun (digits, rest) => ((Nat.ofDigitChars 10 digits 0 : Int), rest)

def expect (mark : Char) (s : List Char) : Option (List Char) :=
  match skipBlanks s with
  | c :: rest => if c = mark then some rest else none
  | [] => none

/-! ## Parts -/

def readDate (s : List Char) : Option (Date × List Char) := do
  let (year, s) ← readYear s
  let (month, s) ← readField (← expect '-' s)
  let (day, s) ← readField (← expect '-' s)
  return ({ year, month, day }, s)

/-- The fraction of a second in nanoseconds. It may be missing, and digits after the ninth do not count. -/
def readFraction : List Char → Option (Nat × List Char)
  | '.' :: s => do
    let (digits, rest) ← readDigits none s
    return (Nat.ofDigitChars 10 ((digits.take 9).rightpad 9 '0') 0, rest)
  | s => some (0, s)

def readClock (s : List Char) : Option (Clock × List Char) := do
  let (hour, s) ← readField s
  let (minute, s) ← readField (← expect ':' s)
  let (second, s) ← readField (← expect ':' s)
  let (nano, s) ← readFraction s
  return ({ hour, minute, second, nano }, s)

def twoDigits? (a b : Char) : Option Nat :=
  if a.isDigit && b.isDigit then some (Nat.ofDigitChars 10 [a, b] 0) else none

/-- Hours and minutes of two digits each, with colons or blanks between them. -/
def readOffset : List Char → Option (Nat × List Char)
  | a :: b :: s => do
    let hours ← twoDigits? a b
    match s.dropWhile fun c => c == ':' || isBlank c with
    | c :: d :: rest =>
      let minutes ← twoDigits? c d
      if minutes < 60 && hours * 60 + minutes < 1440 then return (hours * 60 + minutes, rest) else none
    | _ => none
  | _ => none

/-- How many minutes the zone is ahead. The minus sign may also be the typographic one. -/
def readZone (s : List Char) : Option (Int × List Char) :=
  match s with
  | '+' :: s => (readOffset s).map fun (minutes, rest) => (minutes, rest)
  | '-' :: s | '−' :: s => (readOffset s).map fun (minutes, rest) => (-(minutes : Int), rest)
  | 'Z' :: s | 'z' :: s => some (0, s)
  | u :: t :: c :: s => if u.toUpper = 'U' ∧ t.toUpper = 'T' ∧ c.toUpper = 'C' then some (0, s) else none
  | _ => none

def isDateMark (c : Char) : Bool := c == 'T' || c == 't' || c == ' '

def ofChars? (s : List Char) : Option Instant := do
  let (date, s) ← readDate s
  match s with
  | mark :: s =>
    if isDateMark mark then
      let (clock, s) ← readClock s
      let (ahead, s) ← readZone (skipBlanks s)
      if (skipBlanks s).isEmpty then ofOffset? date clock ahead else none
    else none
  | [] => none

def parse? (text : String) : Option Instant := ofChars? text.toList

end Statechart.Instant
