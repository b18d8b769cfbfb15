/-!
# Binary64 numbers

A floating-point value is kept as its 64 bits, so that signed zeros and every NaN stay apart. This
module reads the bits as an exact number and finds the bits nearest to a fraction.

* `Binary64.ofBits`: sign, significand and exponent of 64 bits
* `Binary64.nearestBits`: the bits of the value nearest to a fraction, ties to the even significand
* `Binary64.compare?`: the order of two values as real numbers
-/

namespace ResumableParsing

/-- What 64 bits denote. -/
inductive Binary64 where
  /-- Not a number. -/
  | nan
  /-- An infinity. -/
  | infinite (negative : Bool)
  /-- The number `significand * 2 ^ exponent`, with its sign. -/
  | finite (negative : Bool) (significand : Nat) (exponent : Int)
deriving DecidableEq, Inhabited

namespace Binary64

/-- The significand at which a new power of two begins. -/
def hiddenBit : Nat := 0x10000000000000

/-- The weight of the sign. -/
def signBit : Nat := 0x8000000000000000

/-- Reads the sign, the eleven bits of the exponent and the fifty-two bits of the fraction. -/
def ofBits (bits : UInt64) : Binary64 :=
  let n := bits.toNat
  let negative := n / signBit = 1
  let field := n / hiddenBit % 2048
  let fraction := n % hiddenBit
  if field = 2047 then
    if fraction = 0 then .infinite negative else .nan
  else if field = 0 then .finite negative fraction (-1074)
  else .finite negative (hiddenBit + fraction) ((field : Int) - 1075)

/-- The bits of positive infinity. -/
def infinityBits : Nat := 2047 * hiddenBit

/-- The numerator of a power: `upFactor base e / downFactor base e` is `base ^ e`. -/
def upFactor (base : Nat) (e : Int) : Nat := base.pow e.toNat

/-- The denominator of a power. -/
def downFactor (base : Nat) (e : Int) : Nat := base.pow (-e).toNat

/-- The quotient rounded to the nearest natural number, a half to the even neighbour. -/
def roundedQuotient (num den : Nat) : Nat :=
  let q := num / den
  let r := num % den
  if 2 * r < den then q
  else if den < 2 * r then q + 1
  else if q % 2 = 0 then q else q + 1

/-- The exponent at which the fraction has a significand of fifty-three bits, as far as the
smallest exponent allows. -/
def exponentOf (num den : Nat) : Int :=
  let e : Int := (num.log2 : Int) - (den.log2 : Int) - 53
  let low := num * downFactor 2 e / (den * upFactor 2 e)
  max (if low < 2 * hiddenBit then e else e + 1) (-1074)

/-- The bits of the positive value nearest to `num / den`, without a sign. A significand that
rounds up to the next power of two carries into the exponent's bits. -/
def nearestBits (num den : Nat) : Nat :=
  if num = 0 then 0
  else
    let e := exponentOf num den
    let m := roundedQuotient (num * downFactor 2 e) (den * upFactor 2 e)
    let bits := if m < hiddenBit then m else (e + 1074).toNat * hiddenBit + m
    min bits infinityBits

/-- The bits with a sign in front. -/
def signedBits (negative : Bool) (magnitude : Nat) : UInt64 :=
  UInt64.ofNat (if negative then signBit + magnitude else magnitude)

/-- The sign of a value as an integer factor. -/
def signFactor (negative : Bool) : Int := if negative then -1 else 1

/-- The order of two numbers on the real line, where both zeros are equal; `none` if one of them
is not a number. -/
def compare? : Binary64 → Binary64 → Option Ordering
  | .nan, _ => none
  | _, .nan => none
  | .infinite a, .infinite b => some (compare (signFactor a) (signFactor b))
  | .infinite a, .finite .. => some (if a then .lt else .gt)
  | .finite .., .infinite b => some (if b then .gt else .lt)
  | .finite a m e, .finite b n f =>
    let low := min e f
    some (compare (signFactor a * (m * upFactor 2 (e - low) : Nat))
      (signFactor b * (n * upFactor 2 (f - low) : Nat)))

/-- The value is the given integer. -/
def isInt (b : Binary64) (n : Int) : Bool :=
  compare? b (.finite (n < 0) n.natAbs 0) == some .eq

/-- Both are numbers and the same one. -/
def sameNumber (a b : Binary64) : Bool := compare? a b == some .eq

end Binary64

end ResumableParsing
