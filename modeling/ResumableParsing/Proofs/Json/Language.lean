import ResumableParsing.Json.Load
import ResumableParsing.Proofs.Predictive.Recognition

/-!
# The language of JSON documents

The reference grammar: which texts are JSON documents, and what they stand for. It is given by the
texts alone and does not say how they are read. Blanks may stand in front of the document and
behind each of its tokens.

* `Json.Blanks`, `Json.Symbol`, `Json.NumberText`, `Json.IsString`: tokens
* `Json.IsValue`: values of all kinds
* `Json.entries`: the entries of an object
* `Json.IsDocument`: whole documents
* `Json.exactNumber`: numbers with exact integers of any length, and a conversion of the others
-/

namespace ResumableParsing.Json

/-! ## Characters -/

/-- A space, a tab, a carriage return or a line feed. -/
def IsBlank (p : CodePoint) : Prop := p = 32 ∨ p = 9 ∨ p = 13 ∨ p = 10

/-- One of the digits 0 to 9. -/
def IsDigit (p : CodePoint) : Prop := 48 ≤ p ∧ p ≤ 57

/-- A digit, or one of the letters a to f in either case. -/
def IsHexDigit (p : CodePoint) : Prop := IsDigit p ∨ 65 ≤ p ∧ p ≤ 70 ∨ 97 ≤ p ∧ p ≤ 102

/-- Any run of blanks. -/
def Blanks (w : List CodePoint) : Prop := ∀ p ∈ w, IsBlank p

/-- A character that is a token of its own, and the blanks behind it. -/
inductive Symbol (c : CodePoint) : Phrases CodePoint Unit where
  | mk {b : List CodePoint} : Blanks b → Symbol c (c :: b) ()

/-! ## Numbers -/

/-- One or more digits. -/
def Digits (w : List CodePoint) : Prop := w ≠ [] ∧ ∀ p ∈ w, IsDigit p

/-- The exponent of a number: a letter e in either case, perhaps a sign, and digits. -/
structure Power where
  /-- The letter. -/
  letter : CodePoint
  /-- The sign, if there is one. -/
  sign : Option CodePoint
  /-- The digits. -/
  digits : List CodePoint
  isLetter : letter = 101 ∨ letter = 69
  isSign : ∀ c, sign = some c → c = 43 ∨ c = 45
  isDigits : Digits digits

/-- The text of an exponent. -/
def Power.points (p : Power) : List CodePoint := p.letter :: (p.sign.toList ++ p.digits)

/-- A number as it is written: perhaps a minus sign, digits, perhaps a point with digits behind it,
and perhaps an exponent. -/
structure NumberText where
  /-- A minus sign stands in front. -/
  minus : Bool
  /-- The digits of the whole part. -/
  whole : List CodePoint
  /-- The digits behind the point, if there is one. -/
  fraction : Option (List CodePoint)
  /-- The exponent, if there is one. -/
  power : Option Power
  isWhole : Digits whole
  isFraction : ∀ ds, fraction = some ds → Digits ds

/-- The number that decimal digits denote. -/
def decimal (ds : List CodePoint) : Nat := ds.foldl (fun n d => 10 * n + (d - 48)) 0

namespace NumberText

/-- The text of a number. -/
def points (n : NumberText) : List CodePoint :=
  (if n.minus then [45] else []) ++ n.whole ++ n.fraction.elim [] (46 :: ·) ++
    n.power.elim [] Power.points

/-- The integer that the sign and the whole part denote. -/
def integer (n : NumberText) : Int := if n.minus then -decimal n.whole else decimal n.whole

/-- An integer if there is neither fraction nor exponent; otherwise the text is converted. -/
def value (float : Text → Value) (n : NumberText) : Value :=
  if n.fraction = none ∧ n.power = none then .int n.integer else float ⟨n.points⟩

end NumberText

/-- The value of the text of a number, where integers of any length are exact and other numbers are
converted by `float`. -/
def exactNumber (float : Text → Value) (t : Text) : Except Fault Value :=
  match Numeral.exponentOf? t.points with
  | some n => .ok (.int n)
  | none => .ok (float t)

/-! ## Strings -/

/-- What the letter of a short escape stands for. -/
inductive ShortEscape : CodePoint → CodePoint → Prop where
  | quote : ShortEscape 34 34
  | backslash : ShortEscape 92 92
  | slash : ShortEscape 47 47
  | backspace : ShortEscape 98 8
  | formFeed : ShortEscape 102 12
  | lineFeed : ShortEscape 110 10
  | carriageReturn : ShortEscape 114 13
  | tab : ShortEscape 116 9

/-- The number that four hexadecimal digits denote. -/
def hexadecimal (a b c d : CodePoint) : CodePoint :=
  16 * (16 * (16 * hexValue a + hexValue b) + hexValue c) + hexValue d

/-- A character of a string as it is written, and the code point that it stands for. -/
inductive Character : Phrases CodePoint CodePoint where
  /-- Anything but a quote and a backslash stands for itself. -/
  | plain {p : CodePoint} : p ≠ 34 → p ≠ 92 → Character [p] p
  /-- A short escape. -/
  | short {c p : CodePoint} : ShortEscape c p → Character [92, c] p
  /-- Four hexadecimal digits stand for one code point, also for half of a surrogate pair. -/
  | long {a b c d : CodePoint} : IsHexDigit a → IsHexDigit b → IsHexDigit c → IsHexDigit d →
      Character [92, 117, a, b, c, d] (hexadecimal a b c d)

/-- Characters between quotes. -/
inductive IsString : Phrases CodePoint (List CodePoint) where
  | mk {w ps : List CodePoint} : Phrases.many Character w ps → IsString (34 :: (w ++ [34])) ps

/-! ## Values -/

/-- A key of an object, a colon and the value under the key. -/
inductive Member (V : Phrases CodePoint Value) : Phrases CodePoint (List CodePoint × Value) where
  | mk {k b s w ps : List CodePoint} {v : Value} : IsString k ps → Blanks b → Symbol 58 s () →
      V w v → Member V (k ++ (b ++ (s ++ w))) (ps, v)

/-- Texts separated by commas between an opening and a closing character. -/
inductive Enclosed {β : Type} (l r : CodePoint) (L : Phrases CodePoint β) :
    Phrases CodePoint (List β) where
  | mk {u w x : List CodePoint} {vs : List β} : Symbol l u () → Phrases.sepBy L (Symbol 44) w vs →
      Symbol r x () → Enclosed l r L (u ++ (w ++ x)) vs

/-- The entries of an object: each key in its first place, with its last value. -/
def entries (members : List (List CodePoint × Value)) : List (Value × Value) :=
  (members.map Prod.fst).eraseDups.map fun k =>
    (.text ⟨k⟩, (members.reverse.lookup k).getD .none)

/-- The text is that of the value, and perhaps blanks behind it. Numbers are converted by
`number`. -/
inductive IsValue (number : NumberText → Value) : Phrases CodePoint Value where
  | null {b : List CodePoint} : Blanks b → IsValue number ((Text.ofString "null").points ++ b) .none
  | true {b : List CodePoint} : Blanks b →
      IsValue number ((Text.ofString "true").points ++ b) (.bool true)
  | false {b : List CodePoint} : Blanks b →
      IsValue number ((Text.ofString "false").points ++ b) (.bool false)
  | number (n : NumberText) {b : List CodePoint} : Blanks b →
      IsValue number (n.points ++ b) (number n)
  | string {w ps b : List CodePoint} : IsString w ps → Blanks b →
      IsValue number (w ++ b) (.text ⟨ps⟩)
  /-- Values between brackets, separated by commas. -/
  | array {w : List CodePoint} {vs : List Value} : Enclosed 91 93 (IsValue number) w vs →
      IsValue number w (.list vs)
  /-- Members between braces, separated by commas. -/
  | object {w : List CodePoint} {members : List (List CodePoint × Value)} :
      Enclosed 123 125 (Member (IsValue number)) w members →
      IsValue number w (.dict (entries members))

/-- Blanks, and then a value. -/
inductive IsDocument (number : NumberText → Value) : Phrases CodePoint Value where
  | mk {b w : List CodePoint} {v : Value} : Blanks b → IsValue number w v →
      IsDocument number (b ++ w) v

end ResumableParsing.Json
