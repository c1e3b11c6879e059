/-!
# Instants

A moment of universal time as a date of the Gregorian calendar and a time of day, and its RFC 3339 text.
-/

namespace Statechart

/-! ## Dates -/

structure Date where
  year : Int
  month : Nat
  day : Nat
deriving DecidableEq, Repr

namespace Date

def isLeapYear (year : Int) : Bool := year % 4 = 0 && (year % 100 ≠ 0 || year % 400 = 0)

def daysInMonth (year : Int) (month : Nat) : Nat :=
  match month with
  | 2 => if isLeapYear year then 29 else 28
  | 4 | 6 | 9 | 11 => 30
  | _ => 31

def minYear : Int := -262143

def maxYear : Int := 262142

def isValid (d : Date) : Bool :=
  minYear ≤ d.year && d.year ≤ maxYear && 1 ≤ d.month && d.month ≤ 12 && 1 ≤ d.day &&
    d.day ≤ daysInMonth d.year d.month

def next (d : Date) : Date :=
  if d.day < daysInMonth d.year d.month then { d with day := d.day + 1 }
  else if d.month < 12 then { d with month := d.month + 1, day := 1 }
  else { year := d.year + 1, month := 1, day := 1 }

def previous (d : Date) : Date :=
  if 1 < d.day then { d with day := d.day - 1 }
  else if 1 < d.month then { d with month := d.month - 1, day := daysInMonth d.year (d.month - 1) }
  else { year := d.year - 1, month := 12, day := 31 }

end Date

/-! ## Times of day -/

/-- The second 60 is a leap second. -/
structure Clock where
  hour : Nat
  minute : Nat
  second : Nat
  nano : Nat
deriving DecidableEq, Repr

def Clock.isValid (c : Clock) : Bool := c.hour < 24 && c.minute < 60 && c.second ≤ 60 && c.nano < 1000000000

/-! ## Instants -/

structure Instant where
  date : Date
  clock : Clock
  isValid_date : date.isValid = true
  isValid_clock : clock.isValid = true
deriving DecidableEq

namespace Instant

def epoch : Instant := ⟨⟨1970, 1, 1⟩, ⟨0, 0, 0, 0⟩, by decide, by decide⟩

def of? (date : Date) (clock : Clock) : Option Instant :=
  if h : date.isValid = true ∧ clock.isValid = true then some ⟨date, clock, h.1, h.2⟩ else none

theorem of?_date_clock (i : Instant) : of? i.date i.clock = some i := by
  simp [of?, i.isValid_date, i.isValid_clock]

/-- The instant at which the clocks of a place show this, where they are so many minutes ahead. -/
def ofOffset? (date : Date) (clock : Clock) (ahead : Int) : Option Instant :=
  if date.isValid && clock.isValid then
    let minutes : Int := clock.hour * 60 + clock.minute - ahead
    let date := if minutes < 0 then date.previous else if minutes < 1440 then date else date.next
    let minutes := (minutes % 1440).toNat
    of? date { clock with hour := minutes / 60, minute := minutes % 60 }
  else none

/-! ## Texts -/

/-- The digits of a number, with zeros before them up to this width. -/
def padded (width n : Nat) : List Char := (Nat.toDigits 10 n).leftpad width '0'

/-- Four digits, with a sign where the year is not between 0 and 9999. -/
def yearChars (year : Int) : List Char :=
  if 0 ≤ year ∧ year ≤ 9999 then padded 4 year.toNat
  else (if year < 0 then '-' else '+') :: padded 4 year.natAbs

/-- No digits, or as many of three, six and nine as it takes. -/
def fractionChars (nano : Nat) : List Char :=
  if nano = 0 then []
  else if nano % 1000000 = 0 then '.' :: padded 3 (nano / 1000000)
  else if nano % 1000 = 0 then '.' :: padded 6 (nano / 1000)
  else '.' :: padded 9 nano

def toChars (i : Instant) : List Char :=
  yearChars i.date.year ++ '-' :: padded 2 i.date.month ++ '-' :: padded 2 i.date.day ++
    'T' :: padded 2 i.clock.hour ++ ':' :: padded 2 i.clock.minute ++ ':' :: padded 2 i.clock.second ++
    fractionChars i.clock.nano ++ ['Z']

def text (i : Instant) : String := String.ofList i.toChars

end Instant

end Statechart
