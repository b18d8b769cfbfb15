import ResumableParsing.Action

/-!
# Grammars

A grammar describes how parsers are put together. It is data; building it makes the parsers
themselves, the operands from left to right before the parser that combines them. An operand that
occurs twice is built twice; `Grammar.ref` refers to a parser that is there already.
-/

namespace ResumableParsing

/-- What a parser written by the caller does in a state. -/
abbrev Native (W : Type) := State Value → Action W (Reply Value)

/-- A description of a parser. -/
inductive Grammar (W : Type) where
  /-- A parser that has been built before. -/
  | ref (p : ParserId)
  /-- One token that satisfies a predicate. -/
  | some (accepts : Value → Action W Bool)
  /-- One token equal to a value. -/
  | token (v : Value)
  /-- Nothing; the result is the value. -/
  | pure (v : Value)
  /-- Always a failure with the message. -/
  | fail (message : String)
  /-- The end of the input. -/
  | finished
  /-- One parser, then the other; the results form a group. -/
  | plus (p q : Grammar W)
  /-- One parser, or the other if it fails without consuming. -/
  | or (p q : Grammar W)
  /-- The result of a parser, transformed. -/
  | map (p : Grammar W) (f : Value → Action W Value)
  /-- A parser, then the grammar that depends on its result. -/
  | bind (p : Grammar W) (f : Value → Action W (Grammar W))
  /-- A parser whose result is left out of a group. -/
  | skip (p : Grammar W)
  /-- A parser that goes back to its start if it fails. -/
  | attempt (p : Grammar W)
  /-- A parser, or the value if it fails without consuming. -/
  | optional (p : Grammar W) (default : Value)
  /-- A parser as often as it succeeds; the result is a stream. -/
  | many (p : Grammar W)
  /-- A parser at least once. -/
  | oneplus (p : Grammar W)
  /-- A parser exactly `n` times. -/
  | times (n : Int) (p : Grammar W)
  /-- A parser at least `low` times and at most `high` times, if there is a limit. -/
  | betweenTimes (low : Int) (high : Option Int) (p : Grammar W)
  /-- A parser at least once, separated by another. -/
  | sepBy1 (p separator : Grammar W)
  /-- A parser any number of times, separated by another. -/
  | sepBy (p separator : Grammar W)
  /-- Parsers one after another; the result is a stream. -/
  | sequence (ps : List (Grammar W))
  /-- A parser whose resulting stream is read into a list. -/
  | listed (p : Grammar W)
  /-- A parser under a new name. -/
  | named (p : Grammar W) (name : String)
  /-- A new parser defined as another. -/
  | wrap (p : Grammar W)
  /-- A parser that is to be defined later. -/
  | forward
  /-- A parser without definition. -/
  | undefined (name : String)
  /-- A parser written by the caller. -/
  | native (name : String) (run : Native W)
  /-- A parser whose reply the caller looks at, given the state before it. -/
  | after (name : String) (p : Grammar W)
    (run : State Value → Reply Value → Action W (Reply Value))
  /-- A cell of lazily repeated results: its tail runs the repetition again from here. -/
  | cell (v : Value) (again : ParserId)

instance {W : Type} : Inhabited (Grammar W) := ⟨.finished⟩

/-- A parser, or nothing if it fails without consuming. -/
def Grammar.maybe {W : Type} (p : Grammar W) : Grammar W := .optional p .none

end ResumableParsing
