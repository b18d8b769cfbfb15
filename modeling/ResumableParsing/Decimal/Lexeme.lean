import ResumableParsing.Decimal.Binary

/-!
# Decimal lexemes

The value of a number written in decimal: an exact integer, or the nearest binary64 number.

* `Decimal.Lexeme`: sign, digits, fraction and exponent of a written number
* `Lexeme.toBits`: the nearest binary64 value
-/

namespace ResumableParsing.Decimal

/-- A number as it is written: `digits` is the whole part followed by the `places` digits of the
fraction. -/
structure Lexeme where
  /-- A minus sign stands in front. -/
  negative : Bool
  /-- All digits read as one number. -/
  digits : Nat
  /-- How many of them stand behind the point. -/
  places : Nat
  /-- The exponent behind the digits. -/
  exponent : Int
deriving DecidableEq, Inhabited

namespace Lexeme

/-- The number without sign and exponent is below `10 ^ magnitude`. -/
def magnitude (x : Lexeme) : Int := (Nat.toDigits 10 x.digits).length

/-- The bits of the nearest binary64 value. A power of ten beyond the range of the format decides
the result without being computed. -/
def toBits (x : Lexeme) : UInt64 :=
  let e := x.exponent - x.places
  let bits :=
    if x.digits = 0 then 0
    else if 400 < e + x.magnitude then Binary64.infinityBits
    else if e + x.magnitude < -400 then 0
    else Binary64.nearestBits (x.digits * Binary64.upFactor 10 e) (Binary64.downFactor 10 e)
  Binary64.signedBits x.negative bits

end Lexeme

end ResumableParsing.Decimal
