import ResumableParsing.Decimal.Lexeme
import ResumableParsing.Grammar.Build

/-!
# A grammar of JSON documents

JSON text read code point by code point: any value with blanks around it, and then the end of the
input. An escape such as `\u00e9` stands for one code point; two escapes for the halves of a
surrogate pair stay two code points.

* `Json.Numeral`, `Json.number`: a number as it is written, and its value
* `Json.unicode`, `Json.unescape`, `Json.object`: the values of other parts
* `Json.Part`: the parts of the grammar
* `Json.document`: the parser of a whole document
-/

namespace ResumableParsing.Json

variable {W : Type}

/-! ## Values of parts -/

/-- The text that a value is; other values count as no text. -/
def textOf : Value → Text
  | .text t => t
  | _ => .empty

/-- The texts of a list, one after another. -/
def joined : Value → Text
  | .list vs => .join (vs.map textOf)
  | _ => .empty

/-- A number as it is written. -/
structure Numeral where
  /-- A minus sign stands in front. -/
  negative : Bool
  /-- The digits of the whole part. -/
  whole : Text
  /-- The digits behind the point, if there is one. -/
  fraction : Option Text
  /-- The exponent, if there is one. -/
  exponent : Option Int
deriving DecidableEq, Inhabited

namespace Numeral

/-- The code point is a decimal digit. -/
def isDigit (p : CodePoint) : Bool := (Text.digitValue? p).isSome

/-- Whether a minus sign stands in front, and what follows the sign. -/
def takeSign : List CodePoint → Bool × List CodePoint
  | 45 :: ps => (true, ps)
  | 43 :: ps => (false, ps)
  | ps => (false, ps)

/-- The leading digits, and what follows them. -/
def takeDigits (ps : List CodePoint) : Text × List CodePoint :=
  (⟨ps.takeWhile isDigit⟩, ps.dropWhile isDigit)

/-- The digits behind a leading point, and what follows them. -/
def takeFraction : List CodePoint → Option Text × List CodePoint
  | 46 :: ps => (some (takeDigits ps).1, (takeDigits ps).2)
  | ps => (none, ps)

/-- The integer of a sign and digits. -/
def integer (negative : Bool) (digits : Text) : Int :=
  let n : Int := digits.numeralValue
  if negative then -n else n

/-- The number of an exponent without its letter: a sign if there is one, and digits. -/
def exponentOf? (ps : List CodePoint) : Option Int :=
  let (negative, digits) := takeSign ps
  if (Text.mk digits).isNumeral then some (integer negative ⟨digits⟩) else none

/-- The number that a text denotes: a sign if there is one, a whole part and a fraction with a digit
in at least one of them, and an exponent if there is one. -/
def ofText? (t : Text) : Option Numeral := do
  let (negative, ps) := takeSign t.points
  let (whole, ps) := takeDigits ps
  let (fraction, ps) := takeFraction ps
  guard ((whole ++ fraction.getD .empty).length ≠ 0)
  match ps with
  | [] => return ⟨negative, whole, fraction, none⟩
  | letter :: ps =>
    guard (letter = 101 ∨ letter = 69)
    return ⟨negative, whole, fraction, some (← exponentOf? ps)⟩

/-- The number of digits up to which an integer is exact. -/
def exactDigits : Nat := 4300

/-- The nearest binary64 number. -/
def toBits (n : Numeral) : UInt64 :=
  let places := n.fraction.getD .empty
  Decimal.Lexeme.toBits
    ⟨n.negative, (n.whole ++ places).numeralValue, places.length, n.exponent.getD 0⟩

/-- The value of a number: an integer if there is neither fraction nor exponent, otherwise the
nearest floating-point number. Very long integers become floating-point numbers as well. -/
def value (n : Numeral) : Value :=
  if n.fraction.isNone ∧ n.exponent.isNone ∧ n.whole.length ≤ exactDigits then
    .int (integer n.negative n.whole)
  else .float n.toBits

end Numeral

/-- The value of the text of a number. Tokens of more than one character can make up a text that
looks like a number to the parser and is none. -/
def number (t : Text) : Except Fault Value :=
  match Numeral.ofText? t with
  | some n => .ok n.value
  | none => .error (.notANumber t)

/-- The text of a part of a number; a part that is missing has none. -/
def partText : Value → Text
  | .group vs => .join (vs.map textOf)
  | v => textOf v

/-- The text of the parts of a number. -/
def numberText : Value → Text
  | .group parts => .join (parts.map partText)
  | _ => .empty

/-- The value of a hexadecimal digit. -/
def hexValue (p : CodePoint) : Nat :=
  if 97 ≤ p then p - 87 else if 65 ≤ p then p - 55 else p - 48

/-- The number of hexadecimal digits. -/
def hexNumber (t : Text) : Nat := t.points.foldl (fun n p => 16 * n + hexValue p) 0

/-- The code point of a list of texts of hexadecimal digits. -/
def unicode (digits : Value) : Except Fault Value :=
  let t := joined digits
  if t.length = 0 then .error (.notHexadecimal t)
  else if hexNumber t < 0x110000 then .ok (.text (.ofPoint (hexNumber t)))
  else .error .notACodePoint

/-- The short escapes: what is written behind the backslash, and what it stands for. -/
def escapes : List (CodePoint × CodePoint) :=
  [(34, 34), (92, 92), (47, 47), (98, 8), (102, 12), (110, 10), (114, 13), (116, 9)]

/-- What the letter of a short escape stands for. -/
def unescape (v : Value) : Except Fault Value :=
  match (escapes.map fun e => (Text.ofPoint e.1, e.2)).lookup (textOf v) with
  | some p => .ok (.text (.ofPoint p))
  | none => .error (.noEntry (textOf v))

/-- The entries of an object. -/
def members : List Value → List (Value × Value)
  | [] => []
  | .group [k, v] :: rest => (k, v) :: members rest
  | _ :: rest => members rest

/-- The object of a list of members: a repeated key keeps its first place and takes its last
value. -/
def object : Value → Value
  | .list vs => .dictOf Value.alike (members vs)
  | _ => .dict []

/-! ## The grammar -/

/-- One of the characters of a string. -/
def charIn (chars : String) : Grammar W :=
  .some fun
    | .text t => .done (t.occursIn (.ofString chars))
    | _ => .done false

/-- The character of a string. -/
def char (c : Char) : Grammar W := .token (.text (.ofPoint c.toNat))

/-- A pure function as a map. -/
def mapped (p : Grammar W) (f : Value → Value) : Grammar W := .map p fun v => .done (f v)

/-- A function that may refuse a value as a map. -/
def checked (p : Grammar W) (f : Value → Except Fault Value) : Grammar W :=
  .map p fun v => .ofExcept (f v)

/-! ### Parts

Each part of the grammar is given by the parsers of the parts that it is put together from. -/

namespace Part

/-- A blank. -/
def space : Grammar W := .named (charIn " \t\r\n") "space"

/-- Blanks. -/
def blanks (space : Grammar W) : Grammar W := .skip (.many space)

/-- A character, and the blanks behind it. -/
def operator (blanks : Grammar W) (c : Char) : Grammar W := .plus (char c) blanks

/-- A word that stands for a value, and the blanks behind it. -/
def word (blanks : Grammar W) (w : String) (v : Value) : Grammar W :=
  .named (mapped (.plus (.sequence (w.toList.map char)) blanks) fun _ => v) w

/-- A decimal digit. -/
def digit : Grammar W := .named (charIn "0123456789") "digit"

/-- Decimal digits, at least one. -/
def digits (digit : Grammar W) : Grammar W :=
  mapped (.listed (.oneplus digit)) fun v => .text (joined v)

/-- The digits behind the point, if there is one. -/
def fraction (digits : Grammar W) : Grammar W := .maybe (.plus (char '.') digits)

/-- The exponent, if there is one. -/
def power (digits : Grammar W) : Grammar W :=
  .maybe (.plus (.plus (charIn "eE") (.maybe (charIn "+-"))) digits)

/-- A number, and the blanks behind it. The value of the text of a number is `value`. -/
def number (value : Text → Except Fault Value) (blanks digits fraction power : Grammar W) :
    Grammar W :=
  .plus
    (checked (.plus (.plus (.plus (.maybe (char '-')) digits) fraction) power)
      fun v => value (numberText v))
    blanks

/-- A hexadecimal digit. -/
def hexDigit : Grammar W := .named (charIn "0123456789abcdefABCDEF") "hex digit"

/-- A character of a string that stands for itself. -/
def plain : Grammar W :=
  .named (.some fun v => .done (!v.beq (.ofString "\"") && !v.beq (.ofString "\\"))) "character"

/-- A short escape without its backslash. -/
def short : Grammar W := checked (charIn "\"\\/bfnrt") unescape

/-- A long escape without its backslash. -/
def long (hexDigit : Grammar W) : Grammar W :=
  checked (.plus (.skip (char 'u')) (.listed (.times 4 hexDigit))) unicode

/-- An escape. -/
def escaped (short long : Grammar W) : Grammar W := .plus (.skip (char '\x5c')) (.or short long)

/-- A string, and the blanks behind it. -/
def string (blanks plain escaped : Grammar W) : Grammar W :=
  .plus
    (mapped
      (.plus (.plus (.skip (char '\x22')) (.listed (.many (.or plain escaped))))
        (.skip (char '\x22')))
      fun v => .text (joined v))
    blanks

/-- A key of an object and its value. -/
def member (blanks string value : Grammar W) : Grammar W :=
  .plus (.plus string (.skip (operator blanks ':'))) value

/-- An object. -/
def object (blanks member : Grammar W) : Grammar W :=
  .named
    (mapped
      (.plus (.plus (.skip (operator blanks '\x7b'))
        (.listed (.sepBy member (operator blanks ','))))
        (.skip (operator blanks '\x7d')))
      Json.object)
    "json_object"

/-- An array. -/
def array (blanks value : Grammar W) : Grammar W :=
  .named
    (mapped
      (.plus (.plus (.skip (operator blanks '['))
        (.listed (.sepBy value (operator blanks ','))))
        (.skip (operator blanks ']')))
      id)
    "json_array"

/-- A value of any kind. -/
def anyValue (object array string number null true false : Grammar W) : Grammar W :=
  .or (.or (.or (.or (.or (.or object array) string) number) null) true) false

/-- A value with blanks around it, and then the end of the input. -/
def whole (blanks value : Grammar W) : Grammar W := .plus (.plus blanks value) (.skip .finished)

end Part

/-! ### The parsers -/

/-- A number, and the blanks behind it. The value of the text of a number is `value`. -/
def numberParser (value : Text → Except Fault Value) (blanks : ParserId) : Build W ParserId := do
  let digit ← Part.digit.build
  let digits ← (Part.digits (.ref digit)).build
  let fraction ← (Part.fraction (.ref digits)).build
  let power ← (Part.power (.ref digits)).build
  (Part.number value (.ref blanks) (.ref digits) (.ref fraction) (.ref power)).build

/-- A string, and the blanks behind it. -/
def stringParser (blanks : ParserId) : Build W ParserId := do
  let hexDigit ← Part.hexDigit.build
  let plain ← Part.plain.build
  let short ← Part.short.build
  let long ← (Part.long (.ref hexDigit)).build
  let escaped ← (Part.escaped (.ref short) (.ref long)).build
  (Part.string (.ref blanks) (.ref plain) (.ref escaped)).build

/-- A whole document, where the value of the text of a number is `numberValue`. -/
def documentWith (numberValue : Text → Except Fault Value) : Build W ParserId := do
  let space ← Part.space.build
  let blanks ← (Part.blanks (.ref space)).build
  let number ← numberParser numberValue blanks
  let string ← stringParser blanks
  let null ← (Part.word (.ref blanks) "null" .none).build
  let true ← (Part.word (.ref blanks) "true" (.bool true)).build
  let false ← (Part.word (.ref blanks) "false" (.bool false)).build
  let value ← (Grammar.named .forward "json_value").build
  let member ← (Part.member (.ref blanks) (.ref string) (.ref value)).build
  let object ← (Part.object (.ref blanks) (.ref member)).build
  let array ← (Part.array (.ref blanks) (.ref value)).build
  let alternatives ← (Part.anyValue (.ref object) (.ref array) (.ref string) (.ref number)
    (.ref null) (.ref true) (.ref false)).build
  value.define alternatives
  (Part.whole (.ref blanks) (.ref value)).build

/-- A whole document. -/
def document : Build W ParserId := documentWith number

end ResumableParsing.Json
