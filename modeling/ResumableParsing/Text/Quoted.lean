import ResumableParsing.Text.Printable

/-!
# Quoted text

How text is shown inside messages and parser names: in single quotes, or in double quotes if it
holds a single quote and no double one. Quotes of the chosen kind, backslashes and code points
that are not printable are written as escapes.

* `Text.quoted`: text with every printable code point as it is
* `Text.quotedOctets`: octets, where only ASCII is printable
-/

namespace ResumableParsing.Text

/-! ## Escapes -/

/-- The lower-case hexadecimal digit of a number below sixteen. -/
def hexDigit (n : Nat) : Char :=
  if n < 10 then Char.ofNat (48 + n) else Char.ofNat (87 + n)

/-- The lowest `width` hexadecimal digits of a number. -/
def hexDigits : (width : Nat) → (n : Nat) → List Char
  | 0, _ => []
  | w + 1, n => hexDigits w (n / 16) ++ [hexDigit (n % 16)]

/-- The escape of a code point by its number, in the shortest of the three forms. -/
def numericEscape (p : CodePoint) : List Char :=
  if p < 0x100 then '\x5c' :: 'x' :: hexDigits 2 p
  else if p < 0x10000 then '\x5c' :: 'u' :: hexDigits 4 p
  else '\x5c' :: 'U' :: hexDigits 8 p

/-- The quotation mark that surrounds the code points: double only where that avoids an escape. -/
def quoteMark (points : List CodePoint) : CodePoint :=
  if points.contains 39 && !points.contains 34 then 34 else 39

/-- A code point inside quotation marks `mark`, where `printable` code points stand for
themselves. -/
def quotedPoint (printable : CodePoint → Bool) (mark p : CodePoint) : List Char :=
  if p = mark ∨ p = 92 then ['\x5c', Char.ofNat p]
  else if p = 9 then ['\x5c', 't']
  else if p = 10 then ['\x5c', 'n']
  else if p = 13 then ['\x5c', 'r']
  else if printable p then [Char.ofNat p]
  else numericEscape p

/-- The code points between quotation marks. -/
def quotedPoints (printable : CodePoint → Bool) (points : List CodePoint) : List Char :=
  let mark := quoteMark points
  Char.ofNat mark :: points.flatMap (quotedPoint printable mark) ++ [Char.ofNat mark]

/-! ## The two quoted forms -/

/-- Text as it appears in messages. -/
def quoted (t : Text) : String := String.ofList (quotedPoints isPrintable t.points)

/-- Octets as they appear in messages: marked with a `b`, printable in ASCII only. -/
def quotedOctets (octets : List Nat) : String :=
  String.ofList ('b' :: quotedPoints (fun p => 32 ≤ p && p < 127) octets)

/-- A string as it appears in messages. -/
def quotedString (s : String) : String := (ofString s).quoted

end ResumableParsing.Text
