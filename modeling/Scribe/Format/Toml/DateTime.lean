import Scribe.Format.Toml.Number

/-!
# Dates and times in TOML

A date, a time of day, or a date with a time and perhaps an offset. No setting takes one, so it is only
read over.
-/

namespace Scribe.Toml

/-- Reads a number of `width` digits between `low` and `high`. -/
def field? (width low high : Nat) (cs : List Char) : Option (Nat × List Char) :=
  let ds := cs.take width
  let n := valueIn 10 ds
  if ds.length = width ∧ ds.all Char.isDigit ∧ low ≤ n ∧ n ≤ high then some (n, cs.drop width)
  else none

/-- Reads one given character. -/
def mark? (c : Char) : List Char → Option (List Char)
  | d :: rest => if d = c then some rest else none
  | [] => none

/-- Whether a year has a day more. -/
def isLeap (year : Nat) : Bool := year % 4 = 0 && (year % 100 ≠ 0 || year % 400 = 0)

/-- The number of days of a month. -/
def daysIn (year month : Nat) : Nat :=
  if month = 2 then (if isLeap year then 29 else 28)
  else if month ∈ [4, 6, 9, 11] then 30
  else 31

/-- Reads a date. -/
def date? (cs : List Char) : Option (List Char) := do
  let (year, rest) ← field? 4 0 9999 cs
  let (month, rest) ← field? 2 1 12 (← mark? '-' rest)
  let (_, rest) ← field? 2 1 (daysIn year month) (← mark? '-' rest)
  return rest

/-- Reads a fraction of a second, if there is one. -/
def skipFraction (cs : List Char) : List Char :=
  match cs with
  | '.' :: rest => if (rest.takeWhile Char.isDigit).isEmpty then cs else rest.dropWhile Char.isDigit
  | _ => cs

/-- Reads a time of day; there may be a leap second. -/
def time? (cs : List Char) : Option (List Char) := do
  let (_, rest) ← field? 2 0 23 cs
  let (_, rest) ← field? 2 0 59 (← mark? ':' rest)
  let (_, rest) ← field? 2 0 60 (← mark? ':' rest)
  return skipFraction rest

/-- Reads an offset from universal time. -/
def offset? (cs : List Char) : Option (List Char) :=
  match cs with
  | 'Z' :: rest | 'z' :: rest => some rest
  | '+' :: rest | '-' :: rest => do
    let (_, rest) ← field? 2 0 23 rest
    let (_, rest) ← field? 2 0 59 (← mark? ':' rest)
    return rest
  | _ => none

/-- Reads the time behind a date. -/
def timeOfDate? (cs : List Char) : Option (List Char) :=
  match cs with
  | 'T' :: rest | 't' :: rest | ' ' :: rest => do
    let rest ← time? rest
    return (offset? rest).getD rest
  | _ => none

/-- Reads a date, with its time if there is one, or a time. -/
def dateTime? (cs : List Char) : Option (List Char) :=
  match date? cs with
  | some rest => some ((timeOfDate? rest).getD rest)
  | none => time? cs

end Scribe.Toml
