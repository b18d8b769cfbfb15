/-!
# Text

Text is a list of code points. Unlike `String` it can hold the code points U+D800 to U+DFFF, which
an escape such as `\ud800` in a JSON document denotes on its own.

* `Text.ofString`, `Text.toString?`: the passage to and from `String`
* `Text.join`, `Text.occursIn`: concatenation and the substring test
-/

namespace ResumableParsing

/-- A Unicode code point, surrogates included. -/
abbrev CodePoint := Nat

/-- A sequence of code points. -/
structure Text where
  /-- The code points in order. -/
  points : List CodePoint
deriving DecidableEq, Inhabited

namespace Text

/-- The text of no code points. -/
def empty : Text := ⟨[]⟩

/-- The text of one code point. -/
def ofPoint (p : CodePoint) : Text := ⟨[p]⟩

/-- The code points of a string. -/
def ofString (s : String) : Text := ⟨s.toList.map Char.toNat⟩

/-- The number of code points. -/
def length (t : Text) : Nat := t.points.length

/-- One text after another. -/
def append (a b : Text) : Text := ⟨a.points ++ b.points⟩

instance : Append Text := ⟨append⟩

/-- All texts of a list, one after another. -/
def join (ts : List Text) : Text := ⟨ts.flatMap points⟩

/-- The first list stands somewhere in the second. -/
def pointsOccurIn (xs : List CodePoint) : List CodePoint → Bool
  | [] => xs.isEmpty
  | y :: ys => xs.isPrefixOf (y :: ys) || pointsOccurIn xs ys

/-- The text is a substring of the other. -/
def occursIn (t whole : Text) : Bool := pointsOccurIn t.points whole.points

/-- A code point that a string can hold. -/
def isScalar (p : CodePoint) : Bool := p < 0xd800 || (0xdfff < p && p < 0x110000)

/-- The string of the same code points, unless one of them is a surrogate. -/
def toString? (t : Text) : Option String :=
  if t.points.all isScalar then some (String.ofList (t.points.map Char.ofNat)) else none

/-- The decimal digit that the code point is. -/
def digitValue? (p : CodePoint) : Option Nat :=
  if 48 ≤ p ∧ p ≤ 57 then some (p - 48) else none

/-- The text is not empty and consists of the digits 0 to 9. -/
def isNumeral (t : Text) : Bool := !t.points.isEmpty && t.points.all fun p => (digitValue? p).isSome

/-- The number that a list of decimal digits denotes; other code points count as zero. -/
def numeralValue (t : Text) : Nat :=
  t.points.foldl (fun n p => 10 * n + (digitValue? p).getD 0) 0

@[simp] theorem join_nil : join [] = empty := rfl

@[simp] theorem join_cons (t : Text) (ts : List Text) : join (t :: ts) = t ++ join ts := rfl

@[simp] theorem points_append (a b : Text) : (a ++ b).points = a.points ++ b.points := rfl

end Text

end ResumableParsing
