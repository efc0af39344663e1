import Scribe.Decimal.Shortest
import Scribe.Format.Json

/-!
# Numbers in TOML

Integers have 64 bits and a sign, and may be written in four bases. Floats are those of 64 bits; one that
would be rounded to positive infinity is no float. No setting takes a number, so it is enough to tell
whether a word is one.
-/

namespace Scribe.Toml

-- powers are those of the core library, whatever else is imported
attribute [local instance (2000)] instPowNat

/-- Whether digits of some base, perhaps with single underscores between them, are well formed. -/
def isDigits (isDigit : Char → Bool) : List Char → Bool
  | [] => false
  | [c] => isDigit c
  | c :: '_' :: rest => isDigit c && isDigits isDigit rest
  | c :: rest => isDigit c && isDigits isDigit rest

/-- A text without its sign. -/
def unsign : List Char → List Char
  | '+' :: rest | '-' :: rest => rest
  | cs => cs

/-- Whether a text starts with a minus sign. -/
def isNegative (cs : List Char) : Bool := cs.head? == some '-'

/-- Whether digits are well formed and do not start with a zero before other digits. -/
def isWhole (cs : List Char) : Bool :=
  isDigits Char.isDigit cs && (cs.length ≤ 1 || cs.head? != some '0')

/-- The digits without the underscores. -/
def plain (cs : List Char) : List Char := cs.filter (· != '_')

/-- The number that digits of a base spell, underscores left out. -/
def valueIn (base : Nat) (cs : List Char) : Nat :=
  (plain cs).foldl (fun acc c => base * acc + (Json.hexDigit? c).getD 0) 0

/-! ## Integers -/

/-- Whether a number fits into 64 bits with a sign. -/
def fits (negative : Bool) (n : Nat) : Bool :=
  n < 2 ^ (63 : Nat) || (negative && n = 2 ^ (63 : Nat))

/-- Whether a word is an integer. -/
def isInteger (cs : List Char) : Bool :=
  match cs with
  | '0' :: 'x' :: ds => isDigits (fun c => (Json.hexDigit? c).isSome) ds && fits false (valueIn 16 ds)
  | '0' :: 'o' :: ds => isDigits (fun c => '0' ≤ c && c ≤ '7') ds && fits false (valueIn 8 ds)
  | '0' :: 'b' :: ds => isDigits (fun c => c == '0' || c == '1') ds && fits false (valueIn 2 ds)
  | _ =>
    let ds := unsign cs
    isWhole ds && fits (isNegative cs) (valueIn 10 ds)

/-! ## Floats -/

/-- The least number that is rounded to infinity: half a unit above the largest number of the format. -/
def infiniteFrom : Nat := 2 ^ (1024 : Nat) - 2 ^ (970 : Nat)

/-- Whether a decimal is rounded to a finite number. It has `width + exponent` digits in front of the
point, and `infiniteFrom` has 309. -/
def isFinite (d : Decimal.Scaled) : Bool :=
  let places : Int := Decimal.Binary.width d.digits + d.exponent
  if d.digits = 0 ∨ places < 309 then true
  else if 309 < places then false
  else d.digits * 10 ^ d.exponent.toNat < infiniteFrom * 10 ^ (-d.exponent).toNat

/-- The parts of the text of a float. -/
structure FloatText where
  whole : List Char
  fraction : Option (List Char)
  /-- The exponent, with its sign. -/
  exponent : Option (List Char)

namespace FloatText

/-- Cuts a text without a sign into its parts. -/
def ofList (cs : List Char) : FloatText :=
  let isMark := fun c => c == 'e' || c == 'E'
  let mantissa := cs.takeWhile (!isMark ·)
  { whole := mantissa.takeWhile (· != '.')
    fraction := (mantissa.dropWhile (· != '.')).tail?
    exponent := (cs.dropWhile (!isMark ·)).tail? }

/-- Whether every part is well formed, and one of fraction and exponent is there. -/
def isWellFormed (f : FloatText) : Bool :=
  isWhole f.whole && f.fraction.all (isDigits Char.isDigit) &&
    f.exponent.all (fun e => isDigits Char.isDigit (unsign e)) &&
    (f.fraction.isSome || f.exponent.isSome)

/-- The number that the text spells. -/
def value (f : FloatText) : Decimal.Scaled :=
  let fraction := f.fraction.getD []
  let exponent := f.exponent.getD []
  let magnitude : Int := valueIn 10 (unsign exponent)
  { digits := valueIn 10 (f.whole ++ fraction)
    exponent := (if isNegative exponent then -magnitude else magnitude) - (plain fraction).length }

end FloatText

/-- Whether a word is a float: a whole part with a fraction, an exponent, or both, or one of the values
that are not numbers. -/
def isFloat (cs : List Char) : Bool :=
  let ds := unsign cs
  if ds = ['i', 'n', 'f'] ∨ ds = ['n', 'a', 'n'] then true
  else
    let f := FloatText.ofList ds
    f.isWellFormed && (isNegative cs || isFinite f.value)

end Scribe.Toml
