import ResumableParsing.Outcome
import ResumableParsing.Text.Basic

/-!
# Values, streams and states

Tokens, parsed values, the streams that hold them, the states of a parse and its replies. Streams,
states and replies are written for any element type; `Value` ties the knot, because a parsed value
can itself be a stream, a state or a reply.

* `Sequence`, `Stream`: finished sequences, and persistent streams over them
* `State`: the rest of the input, the position and the user state, perhaps inside a numbered chunk
* `ParseError`, `Reply`: what a parser hands to its continuation
* `Value`: everything that a grammar can read or produce
-/

namespace ResumableParsing

/-! ## References

Parts of a computation that change, or that are computed on demand, live in a store and are referred
to by their place in it. -/

/-- A parser of the store. -/
structure ParserId where
  /-- Its place. -/
  index : Nat
deriving DecidableEq, Inhabited

/-- A deferred tail of a stream. -/
structure TailId where
  /-- Its place. -/
  index : Nat
deriving DecidableEq, Inhabited

/-- A cell of a stream that is read from an iterator. -/
structure CellId where
  /-- Its place. -/
  index : Nat
deriving DecidableEq, Inhabited

/-- The remembered advance of a state inside a chunk. -/
structure AdvanceId where
  /-- Its place. -/
  index : Nat
deriving DecidableEq, Inhabited

/-- A deferred result. -/
structure ResultId where
  /-- Its place. -/
  index : Nat
deriving DecidableEq, Inhabited

/-- An iterator. -/
structure IteratorId where
  /-- Its place. -/
  index : Nat
deriving DecidableEq, Inhabited

/-- A session of an incremental parse. -/
structure SessionId where
  /-- Its place. -/
  index : Nat
deriving DecidableEq, Inhabited

/-! ## Sequences and streams -/

/-- The elements of a finished sequence. -/
inductive Items (α : Type) where
  /-- The code points of a text, each an element of its own. -/
  | text (points : Array CodePoint)
  /-- A list. -/
  | list (elements : Array α)
  /-- A tuple. -/
  | tuple (elements : Array α)
  /-- Numbers below 256. -/
  | octets (numbers : Array Nat)
  /-- The numbers from `start` by steps of `step` up to but not including `stop`. -/
  | range (start stop step : Int)

/-- A finished sequence. Two sequences of the same elements are told apart by their serial
numbers. -/
structure Sequence (α : Type) where
  /-- The number that identifies the sequence. -/
  serial : Nat
  /-- Its elements. -/
  items : Items α

/-- A persistent stream: looking at it never changes what it holds. -/
inductive Stream (α : Type) where
  /-- The empty stream. -/
  | nil
  /-- A cell with a known tail. -/
  | cons (serial : Nat) (head : α) (tail : Stream α)
  /-- A cell whose tail is computed when it is first asked for. -/
  | lazy (serial : Nat) (head : α) (tail : TailId)
  /-- The elements of a sequence from an index on. A handle identifies a view that is held by
  somebody; a view made by moving forward has none. -/
  | view (source : Sequence α) (index : Int) (handle : Option Nat)
  /-- What an iterator gives from a certain point on. -/
  | pulled (cell : CellId)

/-! ## States and replies -/

/-- The state of a parse. It is never changed; moving forward makes a new state. -/
inductive State (α : Type) where
  /-- The rest of the input, the number of tokens consumed before it, and the state of the user. A
  watched state reports each token that it is asked to move past. -/
  | plain (watched : Bool) (input : Stream α) (position : Int) (user : α)
  /-- A state whose input is the rest of a numbered chunk. It remembers the state after its first
  token. -/
  | chunked (advance : AdvanceId) (chunk : Int) (inner : State α)

/-- What went wrong in a parse. -/
inductive Reason where
  /-- A token was needed where the input ends. -/
  | endOfInput
  /-- A token did not fit; it is kept as it was shown at that moment. -/
  | unexpected (token : String)
  /-- A grammar gave a message of its own. -/
  | custom (message : String)
deriving DecidableEq, Inhabited

/-- Why a parse failed: what went wrong, the state where it happened, and the parsers expected
there. Two failures of the same contents are told apart by their serial numbers. -/
structure ParseError (α : Type) where
  /-- The number that identifies the failure. -/
  serial : Nat
  /-- What went wrong. -/
  reason : Reason
  /-- Where it went wrong. -/
  state : State α
  /-- What could have stood there. -/
  expected : List ParserId
  /-- The failure combines the failures of a choice. -/
  merged : Bool := false

/-- What a parser hands to its continuation. -/
inductive Reply (α : Type) where
  /-- Success with a value and the state behind it. -/
  | ok (consumed : Bool) (value : α) (state : State α)
  /-- Failure with an error and the state in which the parser gave up. -/
  | err (consumed : Bool) (error : ParseError α) (state : State α)

/-! ## Values -/

/-- Everything that can be a token or the result of a parse. -/
inductive Value where
  /-- The absent value. -/
  | none
  /-- A truth value. -/
  | bool (b : Bool)
  /-- An integer of any size. -/
  | int (n : Int)
  /-- The bits of a binary64 number. -/
  | float (bits : UInt64)
  /-- The bits of a binary64 value that is not a number. Two of them are told apart by their serial
  numbers. -/
  | nan (serial : Nat) (bits : UInt64)
  /-- A text. -/
  | text (t : Text)
  /-- A list. -/
  | list (elements : List Value)
  /-- A tuple. -/
  | tuple (elements : List Value)
  /-- The tuple made by putting parsers after one another; a further parser extends it. -/
  | group (elements : List Value)
  /-- Pairs of a key and a value, in the order in which the keys were first given. -/
  | dict (entries : List (Value × Value))
  /-- A value that sequential combination leaves out. -/
  | ignored (v : Value)
  /-- A token that carries a name of its own. -/
  | token (name : Value) (v : Value)
  /-- A stream. -/
  | stream (s : Stream Value)
  /-- How a parser finished. -/
  | outcome (o : Outcome)
  /-- The error of a failed parse. -/
  | failure (e : ParseError Value)
  /-- The state of a parse. -/
  | state (s : State Value)
  /-- A whole reply. -/
  | reply (r : Reply Value)

instance : Inhabited Value := ⟨.none⟩

instance : Inhabited (Stream Value) := ⟨.nil⟩

/-! ## Sequences by index -/

namespace Items

/-- The elements of a list, as a sequence. -/
def ofList (xs : List Value) : Items Value := .list xs.toArray

/-- The number of elements. -/
def size : Items Value → Nat
  | .text ps => ps.size
  | .list xs => xs.size
  | .tuple xs => xs.size
  | .octets ns => ns.size
  | .range start stop step =>
    if 0 < step then ((stop - start + step - 1) / step).toNat
    else if step < 0 then ((start - stop - step - 1) / -step).toNat
    else 0

/-- The element at an index counted from the front. -/
def get? (i : Nat) : Items Value → Option Value
  | .text ps => ps[i]?.map fun p => .text (.ofPoint p)
  | .list xs => xs[i]?
  | .tuple xs => xs[i]?
  | .octets ns => ns[i]?.map fun n => .int n
  | items@(.range start _ step) => if i < items.size then some (.int (start + i * step)) else none

/-- All elements in order. -/
def toList (items : Items Value) : List Value :=
  (List.range items.size).filterMap fun i => items.get? i

end Items

namespace Sequence

/-- The number of elements. -/
def size (q : Sequence Value) : Nat := q.items.size

/-- The element at an index, where a negative index counts from the end. -/
def get? (q : Sequence Value) (i : Int) : Option Value :=
  if 0 ≤ i then q.items.get? i.toNat
  else if 0 ≤ i + q.size then q.items.get? (i + q.size).toNat
  else none

end Sequence

/-! ## Reading states -/

namespace State

variable {α : Type}

/-- The rest of the input, or of the current chunk. -/
def input : State α → Stream α
  | .plain _ i _ _ => i
  | .chunked _ _ s => s.input

/-- The number of tokens consumed so far. -/
def position : State α → Int
  | .plain _ _ p _ => p
  | .chunked _ _ s => s.position

/-- The state of the user. -/
def user : State α → α
  | .plain _ _ _ u => u
  | .chunked _ _ s => s.user

/-- The number of the chunk in which the state lies. -/
def chunk? : State α → Option Int
  | .plain .. => none
  | .chunked _ c _ => some c

/-- The place of a state as it is written in messages: the position, after the numbers of the
chunks around it. -/
def place : State α → String
  | .plain _ _ p _ => toString p
  | .chunked _ c s => toString c ++ ":" ++ s.place

end State

/-! ## Reading replies -/

namespace Reply

variable {α : Type}

/-- The outcome of the reply. -/
def outcome : Reply α → Outcome
  | .ok c _ _ => .ofFlags true c
  | .err c _ _ => .ofFlags false c

/-- The state of the reply. -/
def state : Reply α → State α
  | .ok _ _ s => s
  | .err _ _ s => s

/-- The reply as seen after input has been consumed. -/
def consume : Reply α → Reply α
  | .ok _ v s => .ok true v s
  | .err _ e s => .err true e s

@[simp] theorem outcome_consume (r : Reply α) : r.consume.outcome = r.outcome.consume := by
  cases r with
  | ok c _ _ => cases c <;> rfl
  | err c _ _ => cases c <;> rfl

@[simp] theorem state_consume (r : Reply α) : r.consume.state = r.state := by cases r <;> rfl

end Reply

/-- A reply as a tuple: its outcome, its value or its error, and its state. -/
def Reply.elements : Reply Value → List Value
  | .ok c v s => [.outcome (.ofFlags true c), v, .state s]
  | .err c e s => [.outcome (.ofFlags false c), .failure e, .state s]

/-! ## Errors -/

/-- The message for what went wrong. -/
def Reason.message : Reason → String
  | .endOfInput => "got unexpected end of input"
  | .unexpected token => "got unexpected token: " ++ token
  | .custom m => m

namespace ParseError

variable {α : Type}

/-- What went wrong, without what was expected. -/
def message (e : ParseError α) : String := e.reason.message

/-- Two failures of a choice combined: at the same position a new failure, which says what the
second one says and expects what either of them expects; otherwise the second failure alone. -/
def merge (first : ParseError α) (serial : Nat) (second : ParseError α) : ParseError α :=
  if first.state.position ≠ second.state.position then second
  else ⟨serial, second.reason, second.state, first.expected ++ second.expected, true⟩

end ParseError

namespace Value

/-- The elements of a tuple of any kind. -/
def tuple? : Value → Option (List Value)
  | .tuple xs => some xs
  | .group xs => some xs
  | .reply r => some r.elements
  | _ => .none

/-- The elements of a text, a list or a tuple. -/
def sequence? : Value → Option (List Value)
  | .text t => some (t.points.map fun p => .text (.ofPoint p))
  | .list xs => some xs
  | v => v.tuple?

/-- A dictionary with the entries of a list, where a repeated key keeps its first place and takes
its last value. Keys are compared by `same`. -/
def dictOf (same : Value → Value → Bool) (entries : List (Value × Value)) : Value :=
  .dict (entries.foldl insert [])
where
  /-- Replaces the value under a key, or adds the key at the end. -/
  insert (done : List (Value × Value)) (entry : Value × Value) : List (Value × Value) :=
    match done with
    | [] => [entry]
    | e :: rest => if same e.1 entry.1 then (e.1, entry.2) :: rest else e :: insert rest entry

/-- The text of a string. -/
def ofString (s : String) : Value := .text (.ofString s)

end Value

end ResumableParsing
