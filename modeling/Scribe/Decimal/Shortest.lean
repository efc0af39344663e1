/-!
# The fewest digits that read back

A positive binary number has an interval of reals that round to it: up to half the distance to each
neighbour, the ends included when the mantissa is even. `Binary.shortest` finds the decimal with the
fewest digits in that interval. For one digit, two digits, and so on, it looks at the two points next
to the number on the decimal grid of that many digits; the first grid with a point in the interval
wins, of two points the nearer one, and the upper one when both are equally near.

Everything is done on natural numbers: a number is a quotient `num / den`, and a grid of step
`10 ^ e` scales either part.
-/

namespace Scribe.Decimal

-- powers are those of the core library, whatever else is imported
attribute [local instance (2000)] instPowNat

/-- The positive number `mantissa * 2 ^ exponent`. -/
structure Binary where
  mantissa : Nat
  exponent : Int
  /-- Whether the neighbour below is only half as far away as the one above, as it is where the
  exponent changes. -/
  closeBelow : Bool

/-- A decimal number `digits * 10 ^ exponent`. -/
structure Scaled where
  digits : Nat
  exponent : Int
deriving DecidableEq, Repr

namespace Binary

/-- The number of decimal digits. -/
def width (n : Nat) : Nat := (Nat.toDigits 10 n).length

/-- Numerator of the number, over `den`. The unit is a quarter of the distance to the neighbour
above, so that both ends of the interval are whole. -/
def num (b : Binary) : Nat := 4 * b.mantissa * 2 ^ (b.exponent - 2).toNat

/-- The denominator that belongs to `num`. -/
def den (b : Binary) : Nat := 2 ^ (2 - b.exponent).toNat

/-- How far the interval reaches below the number, over `den`. -/
def gapBelow (b : Binary) : Nat := (if b.closeBelow then 1 else 2) * 2 ^ (b.exponent - 2).toNat

/-- How far the interval reaches above the number, over `den`. -/
def gapAbove (b : Binary) : Nat := 2 * 2 ^ (b.exponent - 2).toNat

/-- The exponent of the leading digit. -/
def magnitude (b : Binary) : Int :=
  if b.den ≤ b.num then (width (b.num / b.den) : Int) - 1
  -- the least `j` with `den ≤ num * 10 ^ j`, counted down
  else - (width ((b.den - 1) / b.num) : Int)

/-- Whether a point at distance `distance` from the number lies in an interval that reaches `gap`. -/
def within (b : Binary) (distance gap : Nat) : Bool :=
  if b.mantissa % 2 = 0 then distance ≤ gap else distance < gap

/-- The point of the interval that lies next to the number on the grid of step `10 ^ e`. -/
def onGrid? (b : Binary) (e : Int) : Option Scaled :=
  let scale := 10 ^ (-e).toNat
  let num := b.num * scale
  let den := b.den * 10 ^ e.toNat
  let point := num / den
  let below := num % den
  let above := den - below
  match b.within below (b.gapBelow * scale), b.within above (b.gapAbove * scale) with
  | true, true => some ⟨if below < above then point else point + 1, e⟩
  | true, false => some ⟨point, e⟩
  | false, true => some ⟨point + 1, e⟩
  | false, false => none

/-- The shortest decimal on the grids of `count`, `count + 1`, … digits, as far as `fuel` goes. -/
def shortestFrom (b : Binary) (count : Nat) : Nat → Scaled
  | 0 => ⟨0, 0⟩
  | fuel + 1 =>
    match b.onGrid? (b.magnitude + 1 - count) with
    | some decimal => decimal
    | none => b.shortestFrom (count + 1) fuel

/-- The decimal with the fewest digits that reads back. Seventeen digits tell any two numbers with a
mantissa of 53 bits apart. -/
def shortest (b : Binary) : Scaled :=
  if b.mantissa = 0 then ⟨0, 0⟩ else b.shortestFrom 1 17

end Binary

namespace Scaled

/-- The fraction `n / 10 ^ places` without its trailing zeros, behind a point. -/
def fraction (n places : Nat) : String :=
  let digits := Nat.toDigits 10 n
  let padded := List.replicate (places - digits.length) '0' ++ digits
  let kept := (padded.reverse.dropWhile (· == '0')).reverse
  if kept.isEmpty then "" else String.ofList ('.' :: kept)

/-- The number in positional notation, without an exponent and without trailing zeros behind the
point. -/
def positional (s : Scaled) : String :=
  let places := (-s.exponent).toNat
  let unit := 10 ^ places
  toString (s.digits / unit * 10 ^ s.exponent.toNat) ++
    (if places = 0 then "" else fraction (s.digits % unit) places)

end Scaled

end Scribe.Decimal
