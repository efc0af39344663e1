/-!
# Reading decimal counts

A count is written with the digits `0` to `9`, after an optional plus sign, and is held in a machine
word: a number from `2 ^ 64` on is not a count.
-/

namespace Scribe.Text

-- powers are those of the core library, whatever else is imported
attribute [local instance (2000)] instPowNat

/-- The value of a decimal digit. -/
def digitValue? (c : Char) : Option Nat :=
  if '0' ≤ c ∧ c ≤ '9' then some (c.toNat - '0'.toNat) else none

/-- The number that the digits `cs` spell when they stand behind `acc`. -/
def digitsValue? (acc : Nat) : List Char → Option Nat
  | [] => some acc
  | c :: cs =>
    match digitValue? c with
    | some d => digitsValue? (10 * acc + d) cs
    | none => none

/-- The number that a non-empty list of digits spells. -/
def natOfDigits? : List Char → Option Nat
  | [] => none
  | cs => digitsValue? 0 cs

/-- The count that `cs` spells. -/
def count? (cs : List Char) : Option Nat :=
  let digits := match cs with
    | '+' :: rest => rest
    | _ => cs
  match natOfDigits? digits with
  | some n => if n < 2 ^ (64 : Nat) then some n else none
  | none => none

end Scribe.Text
