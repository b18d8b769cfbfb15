import ResumableParsing.Decimal.Binary

/-!
# Shortest decimal notation

A binary64 number is shown with the fewest decimal digits that read back as the same number, and
among those with the digits nearest to it.

* `Decimal.shortest`: digits and exponent of a positive number
* `Decimal.text64`: the text of any value, positional between `10^-4` and `10^16`
-/

namespace ResumableParsing.Decimal

open Binary64

/-! ## Digits -/

/-- The number of decimal digits of a positive number. -/
def digitCount (n : Nat) : Nat := (Nat.toDigits 10 n).length

/-- A positive number together with the half-way points to its neighbours, on a common
denominator: every real number between `low / den` and `high / den` rounds to `value / den`. -/
structure Interval where
  /-- Numerator of the lower end. -/
  low : Nat
  /-- Numerator of the number. -/
  value : Nat
  /-- Numerator of the upper end. -/
  high : Nat
  /-- The denominator. -/
  den : Nat
  /-- The ends themselves round to the number. -/
  closed : Bool

/-- The numbers that round to `significand * 2 ^ exponent`. Below a power of two the neighbour is
only half as far away. -/
def roundingInterval (significand : Nat) (exponent : Int) : Interval :=
  let unit := upFactor 2 (exponent - 2)
  -- The neighbour below a power of two is half as far away, except at the smallest exponent.
  let below := if significand = hiddenBit ∧ exponent ≠ -1074 then 1 else 2
  { low := (4 * significand - below) * unit
    value := 4 * significand * unit
    high := (4 * significand + 2) * unit
    den := downFactor 2 (exponent - 2)
    closed := significand % 2 = 0 }

/-- The fraction lies in the interval. -/
def Interval.contains (i : Interval) (num den : Nat) : Bool :=
  let n := num * i.den
  if i.closed then i.low * den ≤ n && n ≤ i.high * den
  else i.low * den < n && n < i.high * den

/-- The exponent of the leading decimal digit of a positive fraction. -/
def leadingExponent (num den : Nat) : Int :=
  let e : Int := (digitCount num : Int) - (digitCount den : Int)
  if den * upFactor 10 e ≤ num * downFactor 10 e then e else e - 1

/-- A decimal number `coefficient * 10 ^ exponent`. -/
structure Scaled where
  /-- The digits as a number. -/
  coefficient : Nat
  /-- The power of ten of the last digit. -/
  exponent : Int

/-- The nearer of the interval's decimal neighbours at the power of ten `e` that lie inside. -/
def Interval.nearestOnGrid (i : Interval) (e : Int) : Option Scaled :=
  let num := i.value * downFactor 10 e
  let den := i.den * upFactor 10 e
  let c := num / den
  let inside (c : Nat) : Bool := i.contains (c * upFactor 10 e) (downFactor 10 e)
  let lower := inside c
  let upper := inside (c + 1)
  if lower && upper then some ⟨roundedQuotient num den, e⟩
  else if lower then some ⟨c, e⟩
  else if upper then some ⟨c + 1, e⟩
  else none

/-- The first of the next `fuel` finer grids that has a decimal number in the interval. -/
def Interval.coarsest (i : Interval) : (fuel : Nat) → (e : Int) → Scaled
  | 0, e => ⟨i.value * downFactor 10 e / (i.den * upFactor 10 e), e⟩
  | fuel + 1, e => (i.nearestOnGrid e).getD (i.coarsest fuel (e - 1))

/-- The shortest decimal number that rounds to the given one. Seventeen digits always suffice. -/
def shortest (significand : Nat) (exponent : Int) : Scaled :=
  let i := roundingInterval significand exponent
  i.coarsest 17 (leadingExponent i.value i.den)

/-! ## Notation -/

/-- The digits without trailing zeros. -/
def stripZeros (digits : List Char) : List Char :=
  (digits.reverse.dropWhile fun c => c = '0').reverse

/-- An exponent with its sign and at least two digits. -/
def exponentText (e : Int) : List Char :=
  let digits := Nat.toDigits 10 e.natAbs
  (if e < 0 then '-' else '+') :: (if digits.length < 2 then '0' :: digits else digits)

/-- The digits `d₁d₂…` with the decimal point before digit number `point`, positional for
exponents from -4 to 15 and always with a fractional part; otherwise one digit, its fraction if
there is one, and the exponent. -/
def layout (digits : List Char) (point : Int) : List Char :=
  if -4 < point ∧ point ≤ 16 then
    if point ≤ 0 then '0' :: '.' :: List.replicate (-point).toNat '0' ++ digits
    else
      let n := point.toNat
      if digits.length ≤ n then
        digits ++ List.replicate (n - digits.length) '0' ++ ['.', '0']
      else digits.take n ++ '.' :: digits.drop n
  else
    let mantissa := match digits with
      | d :: e :: rest => d :: '.' :: e :: rest
      | short => short
    mantissa ++ 'e' :: exponentText (point - 1)

/-- The text of a positive number. -/
def positiveText (significand : Nat) (exponent : Int) : List Char :=
  let s := shortest significand exponent
  let digits := Nat.toDigits 10 s.coefficient
  layout (stripZeros digits) (s.exponent + digits.length)

/-- The text of a binary64 value. -/
def text64 (bits : UInt64) : String :=
  match Binary64.ofBits bits with
  | .nan => "nan"
  | .infinite negative => if negative then "-inf" else "inf"
  | .finite negative m e =>
    let body := if m = 0 then ['0', '.', '0'] else positiveText m e
    String.ofList (if negative then '-' :: body else body)

end ResumableParsing.Decimal
