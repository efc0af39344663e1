import Scribe.Decimal.Shortest

/-!
# Floating-point numbers

Numbers of the two binary formats, kept as their bits: two NaNs with different payloads are different
values, and negative zero is told from zero. Both formats share one decoder, which the widths of
their exponent and fraction fields drive.
-/

namespace Scribe

-- powers are those of the core library, whatever else is imported
attribute [local instance (2000)] instPowNat

/-- A number of 32 bits. -/
structure Single where
  bits : UInt32
deriving DecidableEq, Repr

/-- A number of 64 bits. -/
structure Double where
  bits : UInt64
deriving DecidableEq, Repr

/-- What the bits of a floating-point number stand for. -/
inductive FloatValue where
  | nan
  | infinite (negative : Bool)
  | finite (negative : Bool) (magnitude : Decimal.Binary)

/-- The widths of the fields of a binary format. -/
structure FloatFormat where
  exponentBits : Nat
  fractionBits : Nat

namespace FloatFormat

/-- The format of 32 bits. -/
def single : FloatFormat := ⟨8, 23⟩

/-- The format of 64 bits. -/
def double : FloatFormat := ⟨11, 52⟩

/-- Whether the sign bit is set. -/
def isNegative (format : FloatFormat) (bits : Nat) : Bool :=
  bits / 2 ^ (format.exponentBits + format.fractionBits) % 2 = 1

/-- What `bits` stands for. -/
def decode (format : FloatFormat) (bits : Nat) : FloatValue :=
  let negative := format.isNegative bits
  let exponent := bits / 2 ^ format.fractionBits % 2 ^ format.exponentBits
  let fraction := bits % 2 ^ format.fractionBits
  -- the exponent of the last place of the smallest numbers
  let least : Int := 2 - 2 ^ (format.exponentBits - 1) - format.fractionBits
  if exponent = 2 ^ format.exponentBits - 1 then
    if fraction = 0 then .infinite negative else .nan
  else if exponent = 0 then
    .finite negative ⟨fraction, least, false⟩
  else
    .finite negative ⟨2 ^ format.fractionBits + fraction, least + exponent - 1,
      exponent ≠ 1 ∧ fraction = 0⟩

end FloatFormat

/-- What the number's bits stand for. -/
def Single.decoded (x : Single) : FloatValue := FloatFormat.single.decode x.bits.toNat

/-- What the number's bits stand for. -/
def Double.decoded (x : Double) : FloatValue := FloatFormat.double.decode x.bits.toNat

/-- Whether the number is written with a minus sign: negative zero is, and no NaN is. -/
def FloatValue.isNegative : FloatValue → Bool
  | .nan => false
  | .infinite negative => negative
  | .finite negative _ => negative

end Scribe
