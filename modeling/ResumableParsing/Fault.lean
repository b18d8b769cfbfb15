import ResumableParsing.Value.Rendering

/-!
# Faults

What a computation can raise besides producing a value. A failed parse is an ordinary reply; it
becomes a fault only where a caller asks for the parsed value and there is none.

* `Fault`: the causes
* `Fault.message`: their wording
-/

namespace ResumableParsing

/-- The kinds of sequence, as far as messages tell them apart. -/
inductive SequenceKind where
  /-- A text. -/
  | text
  /-- A list. -/
  | list
  /-- A tuple. -/
  | tuple
  /-- Octets. -/
  | octets
  /-- A range of numbers. -/
  | range
deriving DecidableEq, Inhabited, Repr

/-- The kind of a sequence. -/
def Items.kind {α : Type} : Items α → SequenceKind
  | .text _ => .text
  | .list _ => .list
  | .tuple _ => .tuple
  | .octets _ => .octets
  | .range .. => .range

/-- Why a computation was broken off. -/
inductive Fault where
  /-- A value was asked for, but the parse failed. -/
  | noParse (e : ParseError Value)
  /-- An unbounded repetition met a parser that succeeds without consuming; `name` is the
  repetition's name. -/
  | endlessRepetition (name : String)
  /-- A parser was run that has no definition. -/
  | undefinedParser
  /-- A forward declaration was run before its definition. -/
  | undefinedDeclaration
  /-- A deferred computation asked for its own result. -/
  | reentrant
  /-- The first element of an empty stream was asked for. -/
  | emptyStream
  /-- An index is outside a sequence of the given kind. -/
  | indexOutOfRange (kind : SequenceKind)
  /-- A session has no chunk of this number. -/
  | chunkOutOfRange (i : Int)
  /-- A stream was needed where another value stood. -/
  | notAStream
  /-- The parse that computes the rest of a stream waits for a chunk. -/
  | waitingTail
  /-- A text does not denote a number. -/
  | notANumber (t : Text)
  /-- A text does not consist of hexadecimal digits. -/
  | notHexadecimal (t : Text)
  /-- A number is beyond the last code point. -/
  | notACodePoint
  /-- A table has no entry under this text. -/
  | noEntry (t : Text)
  /-- A function of the caller raised an error of its own. -/
  | caller (message : String)

namespace Fault

/-- The message of a fault. -/
def message (names : Names) : Fault → String
  | noParse e => e.text names
  | endlessRepetition name => name ++ " is applied to a parser that accepts an empty input"
  | undefinedParser => "you must define() a parser"
  | undefinedDeclaration => "you must define() a forward_decl somewhere"
  | reentrant => "re-entrant evaluation of a lazy value"
  | emptyStream => "first() of an empty stream"
  | indexOutOfRange .text => "string index out of range"
  | indexOutOfRange .list => "list index out of range"
  | indexOutOfRange .tuple => "tuple index out of range"
  | indexOutOfRange .octets => "index out of range"
  | indexOutOfRange .range => "range object index out of range"
  | chunkOutOfRange i => "chunk index out of range: " ++ toString i
  | notAStream => "a stream is needed"
  | waitingTail => "the rest of the stream waits for a chunk"
  | notANumber t => "could not convert string to float: " ++ t.quoted
  | notHexadecimal t => "invalid literal for int() with base 16: " ++ t.quoted
  | notACodePoint => "chr() arg not in range(0x110000)"
  | noEntry t => t.quoted
  | caller m => m

end Fault

end ResumableParsing
