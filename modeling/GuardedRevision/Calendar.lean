/-!
# Calendar dates

Seconds since the epoch as a date and a time of day in UTC, in the proleptic Gregorian calendar.
Instants outside a fixed range have no date.
-/

namespace GuardedRevision

structure DateTime where
  year : Int
  month : Nat
  day : Nat
  hour : Nat
  minute : Nat
  second : Nat
  deriving DecidableEq

namespace DateTime

def firstSecond : Int := -8334601228800

def lastSecond : Int := 8210266876799

def secondsPerDay : Int := 86400

/-- The date of a day counted from the epoch. Years begin in March here, so that the day added in a
leap year is the last of its year; an era is 400 of them. -/
def ofDay (days : Int) : Int × Nat × Nat :=
  let shifted := days + 719468
  let era := shifted / 146097
  let dayOfEra := (shifted % 146097).toNat
  let yearOfEra :=
    (dayOfEra - dayOfEra / 1460 + dayOfEra / 36524 - dayOfEra / 146096) / 365
  let dayOfYear := dayOfEra - (365 * yearOfEra + yearOfEra / 4 - yearOfEra / 100)
  let marchMonth := (5 * dayOfYear + 2) / 153
  let day := dayOfYear - (153 * marchMonth + 2) / 5 + 1
  let month := if marchMonth < 10 then marchMonth + 3 else marchMonth - 9
  let year := era * 400 + yearOfEra + if month ≤ 2 then 1 else 0
  (year, month, day)

def ofSeconds? (seconds : Int) : Option DateTime :=
  if firstSecond ≤ seconds ∧ seconds ≤ lastSecond then
    let (year, month, day) := ofDay (seconds / secondsPerDay)
    let inDay := (seconds % secondsPerDay).toNat
    some ⟨year, month, day, inDay / 3600, inDay / 60 % 60, inDay % 60⟩
  else
    none

def epoch : DateTime := ⟨1970, 1, 1, 0, 0, 0⟩

/-- A number with zeros in front, up to a width. -/
def padded (width n : Nat) : String :=
  let digits := Nat.toDigits 10 n
  String.ofList (List.replicate (width - digits.length) '0' ++ digits)

/-- Four digits; a year outside them is written with its sign. -/
def yearText (year : Int) : String :=
  if year < 0 then "-" ++ padded 4 year.natAbs
  else if year ≤ 9999 then padded 4 year.natAbs
  else "+" ++ padded 4 year.natAbs

def dateText (date : DateTime) : String :=
  yearText date.year ++ "-" ++ padded 2 date.month ++ "-" ++ padded 2 date.day

/-- Date and time of day with a T between them and a Z at the end, such as `2023-11-14T22:13:20Z`. -/
def text (date : DateTime) : String :=
  date.dateText ++ "T" ++ padded 2 date.hour ++ ":" ++ padded 2 date.minute ++ ":" ++
    padded 2 date.second ++ "Z"

end DateTime

end GuardedRevision
