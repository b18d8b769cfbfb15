import ResumableParsing.Parser.Frame

/-!
# Sessions

A session is an incremental parse between two chunks: not started yet, waiting for a chunk, or
complete. Sessions are values; providing a chunk makes another session.

* `History`: the chunks that a session has received, over a buffer that related sessions share
* `Handlers`: what the caller does with the result of the parse
* `Session`: a parse between two chunks
-/

namespace ResumableParsing

/-- A buffer of chunks. -/
structure BufferId where
  /-- Its place in the store. -/
  index : Nat
deriving DecidableEq, Inhabited

/-- The first `size` chunks of a buffer. A history that ends where its buffer ends grows in place;
any other one moves to a buffer of its own first. -/
structure History where
  /-- The buffer. -/
  buffer : BufferId
  /-- How many of its chunks belong to the history. -/
  size : Nat
deriving DecidableEq, Inhabited

/-- What the caller does with the end of a parse, when the result is asked for. -/
structure Handlers (W : Type) where
  /-- Called for a success. -/
  ok : Value → State Value → Action W Value
  /-- Called for a failure. -/
  err : ParseError Value → State Value → Action W Value

namespace Handlers

variable {W : Type}

/-- The handler's call for a reply. -/
def call (h : Handlers W) : Reply Value → Action W Value
  | .ok _ v s => h.ok v s
  | .err _ e s => h.err e s

/-- Gives the parsed value, or raises the error of the parse. -/
def value : Handlers W where
  ok v _ := .done v
  err e _ := .raise (.noParse e)

end Handlers

/-- How far a session has come. -/
inductive Stage (W : Type) where
  /-- The parser has not been started; it starts in this state. -/
  | ready (p : ParserId) (s : State Value)
  /-- The parser waits for a chunk. -/
  | waiting (r : Request W)
  /-- The parse is over; the handler's answer is computed when it is asked for. -/
  | complete (result : ResultId)

/-- A parse between two chunks. -/
structure Session (W : Type) where
  /-- How far it has come. -/
  stage : Stage W
  /-- What the caller does with its end. -/
  handlers : Handlers W
  /-- The chunks received so far. -/
  chunks : History

/-- The parse is over. -/
def Session.isDone {W : Type} (s : Session W) : Bool :=
  match s.stage with
  | .complete _ => true
  | _ => false

end ResumableParsing
