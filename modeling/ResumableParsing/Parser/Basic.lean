import ResumableParsing.Grammar

/-!
# Parsers

A parser is a cell of the store with a name and a run function. While logging is switched off a
definition becomes the run function itself. While it is switched on the definition is kept behind
the logging method, which first reports the attempt. A definition of one kind does not remove one
of the other kind, and the run function comes first.

* `Combine`: how sequential combination joins two results
* `Body`, `Code`: what a run function does
* `Cell`: a parser
-/

namespace ResumableParsing

/-- How the results of two parsers in sequence are joined. -/
inductive Combine where
  /-- Keeps the first result. -/
  | first
  /-- Keeps the second result. -/
  | second
  /-- Extends the group of the first result, or makes a group of both. -/
  | group
  /-- Puts the first result in front of the stream of the second. -/
  | cons
  /-- Puts two streams after one another. -/
  | append
deriving DecidableEq, Inhabited, Repr

mutual

/-- What a parser does. Its operands are looked up when it runs. -/
inductive Body (W : Type) where
  /-- Reads one token that satisfies a predicate; `self` is expected where there is none. -/
  | some (self : ParserId) (accepts : Value → Action W Bool)
  /-- Succeeds with a value. -/
  | pure (v : Value)
  /-- Fails with a message. -/
  | fail (message : String)
  /-- Succeeds at the end of the input; `self` is expected elsewhere. -/
  | finished (self : ParserId)
  /-- Stands for a definition that is still missing. -/
  | undeclared
  /-- Runs two parsers in sequence. -/
  | seq (p q : ParserId) (c : Combine)
  /-- Runs the second parser if the first fails without consuming. -/
  | alt (p q : ParserId)
  /-- Transforms the result. -/
  | map (p : ParserId) (f : Value → Action W Value)
  /-- Builds a grammar from the result and runs it. -/
  | bind (p : ParserId) (f : Value → Action W (Grammar W))
  /-- Marks the result of the captured run function as one to be left out. -/
  | ignore (inner : Code W)
  /-- Goes back to the start after a failure. -/
  | attempt (p : ParserId)
  /-- Repeats a parser; `self` is the repetition. -/
  | many (self p : ParserId)
  /-- Succeeds with a stream cell whose tail runs a parser again from this state. -/
  | cell (v : Value) (again : ParserId)
  /-- Does what the caller wrote. -/
  | native (run : Native W)
  /-- Runs a parser and gives its reply to the caller. -/
  | after (p : ParserId) (run : State Value → Reply Value → Action W (Reply Value))

/-- A run function. -/
inductive Code (W : Type) where
  /-- The function that was given to a definition. -/
  | body (b : Body W)
  /-- The logging method of a parser. -/
  | method (p : ParserId)

end

/-- A parser. -/
structure Cell (W : Type) where
  /-- The name in messages. -/
  name : String := ""
  /-- Sequential combination leaves the result out. -/
  ignored : Bool := false
  /-- The run function itself. -/
  direct : Option (Code W) := none
  /-- The definition behind the logging method. -/
  logged : Option (Code W) := none

instance {W : Type} : Inhabited (Cell W) := ⟨{}⟩

namespace Cell

variable {W : Type}

/-- The cell after a definition that is made while logging is on or off. -/
def define (c : Cell W) (logging : Bool) (code : Code W) : Cell W :=
  if logging then { c with logged := some code } else { c with direct := some code }

/-- The run function of the parser `p`, whose cell this is, as another definition captures it. -/
def code (c : Cell W) (p : ParserId) : Code W := c.direct.getD (.method p)

end Cell

end ResumableParsing
