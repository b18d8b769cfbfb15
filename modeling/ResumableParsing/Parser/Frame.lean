import ResumableParsing.Parser.Basic

/-!
# Continuations

A parser does not return; it hands its reply to a continuation. A continuation is a list of
frames, the innermost first, each of which remembers what a parser was doing when it started
another one. So a parse that waits for input is a value like any other.

* `Frame`, `Continuation`: what is left to do with a reply
* `Task`: the next step of a parse
* `Request`: a parse that waits for a chunk
* `Finish`: how a parse ends
-/

namespace ResumableParsing

/-- What a parser does with the reply of a parser that it has started. -/
inductive Frame (W : Type) where
  /-- Starts the second parser of a sequence. -/
  | seqFirst (q : ParserId) (c : Combine)
  /-- Joins the results of a sequence. -/
  | seqSecond (consumed : Bool) (v : Value) (c : Combine)
  /-- Tries the second alternative in the state of the first. -/
  | altFirst (q : ParserId) (start : State Value)
  /-- Adds what the first alternative expected. -/
  | altSecond (e : ParseError Value)
  /-- Transforms the result. -/
  | map (f : Value → Action W Value)
  /-- Builds the grammar that depends on the result, and runs it. -/
  | bind (f : Value → Action W (Grammar W))
  /-- Counts the reply as consumed. -/
  | consume
  /-- Marks the result as one to be left out. -/
  | ignore
  /-- Forgets the consumption of a failure that started in this state. -/
  | attempt (start : State Value)
  /-- Ends a repetition or repeats it; `start` is the state before the item. -/
  | manyItem (self p : ParserId) (start : State Value)
  /-- Puts an item in front of the items after it. -/
  | manyRest (v : Value)
  /-- Reports the token that was read, and replies with it. -/
  | matched (token : Value)
  /-- Remembers the state behind the first token of a state inside a chunk, and goes there. -/
  | crossed (advance : AdvanceId) (chunk : Int)
  /-- Gives the reply to the caller. -/
  | after (start : State Value) (run : State Value → Reply Value → Action W (Reply Value))

/-- Frames, the innermost first. -/
abbrev Continuation (W : Type) := List (Frame W)

/-- The next step of a parse. -/
inductive Task (W : Type) where
  /-- Runs a parser. -/
  | run (p : ParserId) (s : State Value) (k : Continuation W)
  /-- Runs a run function that was captured before. -/
  | code (c : Code W) (s : State Value) (k : Continuation W)
  /-- Runs the parser that moves to the given state. -/
  | settle (s : State Value) (k : Continuation W)
  /-- Runs the parser that moves past the first token of a state inside a chunk. -/
  | cross (advance : AdvanceId) (chunk : Int) (inner : State Value) (k : Continuation W)
  /-- Hands a reply to the continuation. -/
  | deliver (r : Reply Value) (k : Continuation W)

/-- The state that a task is about. -/
def Task.state {W : Type} : Task W → State Value
  | .run _ s _ => s
  | .code _ s _ => s
  | .settle s _ => s
  | .cross a c inner _ => .chunked a c inner
  | .deliver r _ => r.state

/-- A parse that waits for the chunk of a number. The state is the one behind the last token; it
continues in the new chunk. -/
structure Request (W : Type) where
  /-- The number of the chunk. -/
  chunk : Int
  /-- The state behind the last token of the chunk before. -/
  state : State Value
  /-- What is left to do. -/
  continuation : Continuation W

/-- How a parse ends. -/
inductive Finish (W : Type) where
  /-- With a reply. -/
  | reply (r : Reply Value)
  /-- For the time being, because the input has run out. -/
  | request (r : Request W)

end ResumableParsing
