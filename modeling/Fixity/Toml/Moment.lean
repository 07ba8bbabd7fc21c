import Fixity.Number.Decimal

/-! Dates and times, checked against the calendar and written in a normal form. -/
namespace Fixity

namespace Toml

/-- A number of exactly so many decimal digits, within bounds. -/
def fixedNumber? (width least greatest : Nat) (text : List Char) : Option (Nat × List Char) := do
  let digits := text.take width
  guard (digits.length = width ∧ digits.all Char.isDigit)
  let n := ofDigits 10 digits
  guard (least ≤ n ∧ n ≤ greatest)
  return (n, text.drop width)

def mark? (c : Char) : List Char → Option (List Char)
  | d :: rest => if c = d then some rest else none
  | [] => none

def isLeapYear (year : Nat) : Bool := year % 4 == 0 && (year % 100 != 0 || year % 400 == 0)

def daysOfMonth (year month : Nat) : Nat :=
  if month = 2 then if isLeapYear year then 29 else 28
  else if [4, 6, 9, 11].contains month then 30
  else 31

def padded (width n : Nat) : List Char :=
  let ds := Nat.toDigits 10 n
  List.replicate (width - ds.length) '0' ++ ds

/-- A date: year, month and day with hyphens. -/
def date? (text : List Char) : Option (List Char × List Char) := do
  let (year, rest) ← fixedNumber? 4 0 9999 text
  let (month, rest) ← fixedNumber? 2 1 12 (← mark? '-' rest)
  let (day, rest) ← fixedNumber? 2 1 31 (← mark? '-' rest)
  guard (day ≤ daysOfMonth year month)
  return (padded 4 year ++ '-' :: padded 2 month ++ '-' :: padded 2 day, rest)

/-- The fraction of a second: at most nine digits count, and zeros at the end are dropped. -/
def fraction? : List Char → Option (List Char × List Char)
  | '.' :: rest =>
    let (digits, rest) := rest.span Char.isDigit
    if digits.isEmpty then none
    else
      let kept := ((digits.take 9).reverse.dropWhile (· == '0')).reverse
      some (if kept.isEmpty then [] else '.' :: kept, rest)
  | rest => some ([], rest)

/-- A time of the day: hours, minutes and seconds with colons, a leap second included. -/
def time? (text : List Char) : Option (List Char × List Char) := do
  let (hour, rest) ← fixedNumber? 2 0 23 text
  let (minute, rest) ← fixedNumber? 2 0 59 (← mark? ':' rest)
  let (second, rest) ← fixedNumber? 2 0 60 (← mark? ':' rest)
  let (fraction, rest) ← fraction? rest
  return (padded 2 hour ++ ':' :: padded 2 minute ++ ':' :: padded 2 second ++ fraction, rest)

/-- A distance of less than a day from universal time, if one is given. No distance at all lies
east. -/
def offset? : List Char → Option (List Char)
  | [] => some []
  | ['z'] | ['Z'] => some ['Z']
  | sign :: rest => do
    guard (sign = '+' ∨ sign = '-')
    let (hour, rest) ← fixedNumber? 2 0 23 rest
    let (minute, rest) ← fixedNumber? 2 0 59 (← mark? ':' rest)
    guard rest.isEmpty
    let sign := if hour = 0 ∧ minute = 0 then '+' else sign
    return sign :: padded 2 hour ++ ':' :: padded 2 minute

/-- A time with or without an offset, which is all of the text. -/
def timeWithOffset? (text : List Char) : Option (List Char) := do
  let (time, rest) ← time? text
  return time ++ (← offset? rest)

/-- A date, a date and a time after a `T` or a space, or a time, which is all of the text. -/
def moment? (text : List Char) : Option (List Char) :=
  match date? text with
  | some (date, []) => some date
  | some (date, c :: rest) =>
    if c = 'T' ∨ c = 't' ∨ c = ' ' then
      (timeWithOffset? rest).map fun time => date ++ 'T' :: time
    else none
  | none =>
    match time? text with
    | some (time, []) => some time
    | _ => none

/-- A date, which is all of the text. -/
def isDate (text : List Char) : Bool := (date? text).any fun r => r.2.isEmpty

end Toml

end Fixity
