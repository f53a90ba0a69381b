/-!
# TOML numbers and dates

Numbers, dates and truth values are read from a whole token, which ends where no such value goes on.
-/

namespace GuardedRevision.Toml

namespace Scalar

def isHex (c : Char) : Bool := c.isDigit || ('a' ≤ c && c ≤ 'f') || ('A' ≤ c && c ≤ 'F')

def digitValue (c : Char) : Nat :=
  if c.isDigit then c.toNat - '0'.toNat
  else if c.isUpper then c.toNat - 'A'.toNat + 10
  else c.toNat - 'a'.toNat + 10

/-- Digits in groups that single underscores part, without the underscores. -/
def grouped? (isDigit : Char → Bool) : List Char → Option (List Char)
  | [] => none
  | [c] => if isDigit c then some [c] else none
  | c :: '_' :: rest =>
      if isDigit c then (grouped? isDigit rest).map (c :: ·) else none
  | c :: rest => if isDigit c then (grouped? isDigit rest).map (c :: ·) else none

def valueIn (radix : Nat) (digits : List Char) : Nat :=
  digits.foldl (fun n c => radix * n + digitValue c) 0

def maxInteger : Int := 9223372036854775807

def minInteger : Int := -9223372036854775808

def inRange? (n : Int) : Option Int := if minInteger ≤ n ∧ n ≤ maxInteger then some n else none

/-- A decimal whole number has no zero in front. -/
def decimal? (token : List Char) : Option Nat :=
  match token with
  | '0' :: _ :: _ => none
  | _ => (grouped? Char.isDigit token).map (valueIn 10)

def unsigned (token : List Char) : Bool × List Char :=
  match token with
  | '-' :: rest => (true, rest)
  | '+' :: rest => (false, rest)
  | _ => (false, token)

def integer? (token : List Char) : Option Int :=
  match token with
  | '0' :: 'x' :: rest => (grouped? isHex rest).bind fun ds => inRange? (valueIn 16 ds)
  | '0' :: 'o' :: rest =>
      (grouped? (fun c => '0' ≤ c && c ≤ '7') rest).bind fun ds => inRange? (valueIn 8 ds)
  | '0' :: 'b' :: rest =>
      (grouped? (fun c => c == '0' || c == '1') rest).bind fun ds => inRange? (valueIn 2 ds)
  | _ =>
      let (negative, digits) := unsigned token
      (decimal? digits).bind fun n => inRange? (if negative then -n else n)

def isExponent (text : List Char) : Bool := (grouped? Char.isDigit (unsigned text).2).isSome

/-- Parts a text at the first character of a kind. -/
def cutAt (isCut : Char → Bool) (text : List Char) : List Char × Option (List Char) :=
  match text.dropWhile (!isCut ·) with
  | [] => (text, none)
  | _ :: rest => (text.takeWhile (!isCut ·), some rest)

def digitsValue (digits : List Char) : Nat := valueIn 10 (digits.filter (· != '_'))

def exponentValue (text : List Char) : Int :=
  let (negative, digits) := unsigned text
  if negative then -digitsValue digits else digitsValue digits

/-- The smallest number that is rounded to infinity and not to the greatest finite double. -/
def overflow : Nat := (Nat.pow 2 54 - 1) * Nat.pow 2 970

/-- Whether `n * 10 ^ exponent` is too great for a double. The number of its digits decides unless it is
close to that of the bound, which has 309. -/
def overflows (n : Nat) (exponent : Int) : Bool :=
  let magnitude := (Nat.toDigits 10 n).length + exponent
  if n = 0 || magnitude < 309 then false
  else if 309 < magnitude then true
  else if 0 ≤ exponent then overflow ≤ n * Nat.pow 10 exponent.toNat
  else overflow * Nat.pow 10 (-exponent).toNat ≤ n

/-- A decimal fraction, which may be too small for a double, and when negative also too great. -/
def isFloat (token : List Char) : Bool :=
  let (negative, body) := unsigned token
  if body = "inf".toList || body = "nan".toList then true
  else
    let (mantissa, exponent) := cutAt (fun c => c == 'e' || c == 'E') body
    let (whole, fraction) := cutAt (· == '.') mantissa
    (decimal? whole).isSome &&
      (fraction.isSome || exponent.isSome) &&
      (fraction.map fun digits => (grouped? Char.isDigit digits).isSome).getD true &&
      (exponent.map isExponent).getD true &&
      (negative ||
        let places := (fraction.getD []).filter (· != '_')
        !overflows (digitsValue (whole ++ places))
          ((exponent.map exponentValue).getD 0 - places.length))

def fixed (count low high : Nat) (digits : List Char) : Bool :=
  digits.length == count && digits.all Char.isDigit &&
    low ≤ valueIn 10 digits && valueIn 10 digits ≤ high

def daysIn (year month : Nat) : Nat :=
  if month = 2 then
    if year % 4 = 0 ∧ (year % 100 ≠ 0 ∨ year % 400 = 0) then 29 else 28
  else if month = 4 ∨ month = 6 ∨ month = 9 ∨ month = 11 then 30
  else 31

def isDate (token : List Char) : Bool :=
  match token.splitOn '-' with
  | [year, month, day] =>
      fixed 4 0 9999 year && fixed 2 1 12 month &&
        fixed 2 1 (daysIn (valueIn 10 year) (valueIn 10 month)) day
  | _ => false

def isTime (token : List Char) : Bool :=
  let (clock, fraction) := cutAt (· == '.') token
  (fraction.map fun digits => !digits.isEmpty && digits.all Char.isDigit).getD true &&
    match clock.splitOn ':' with
    | [hour, minute, second] => fixed 2 0 23 hour && fixed 2 0 59 minute && fixed 2 0 60 second
    | _ => false

def isOffset (text : List Char) : Bool :=
  match text.splitOn ':' with
  | [hour, minute] => fixed 2 0 23 hour && fixed 2 0 59 minute
  | _ => false

/-- A time of day, with or without an offset from UTC. -/
def isTimeWithOffset (token : List Char) : Bool :=
  match token.getLast? with
  | some 'Z' => isTime token.dropLast
  | some 'z' => isTime token.dropLast
  | _ =>
      match cutAt (fun c => c == '+' || c == '-') token with
      | (time, none) => isTime time
      | (time, some offset) => isTime time && isOffset offset

def isDateTime (token : List Char) : Bool :=
  isTime token || isDate token ||
    (isDate (token.take 10) &&
      match token.drop 10 with
      | c :: time => (c == 'T' || c == 't' || c == ' ') && isTimeWithOffset time
      | [] => false)

end Scalar

end GuardedRevision.Toml
