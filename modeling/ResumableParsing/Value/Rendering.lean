import ResumableParsing.Decimal.Shortest
import ResumableParsing.Text.Quoted
import ResumableParsing.Value.Basic

/-!
# Rendering of values

The text of a value in messages and parser names. Parts that live in the store are shown by way of
`Names`: the text of an iterator's cell and the name of a parser.

* `Value.render`: the text of a value
* `State.render`, `Stream.render`: the texts of states and streams
-/

namespace ResumableParsing

/-- How the parts of a value that live in the store are shown. -/
structure Names where
  /-- The text of a cell that is read from an iterator. -/
  cell : CellId → String
  /-- The name of a parser. -/
  parser : ParserId → String

namespace Value

/-- Items between brackets. -/
def bracketed (left : String) (items : List String) (right : String) : String :=
  left ++ String.intercalate ", " items ++ right

/-- Items between round brackets; a comma marks a single item. -/
def parenthesized : List String → String
  | [x] => "(" ++ x ++ ",)"
  | xs => bracketed "(" xs ")"

/-- The text of a parser. -/
def parserText (name : String) : String := "<Parser " ++ name ++ ">"

/-- The arguments of an error: message, state and the expected parsers. These are a tuple if the
error combines others, otherwise a list, which is left out if it is empty. -/
def errorText (names : Names) (message state : String) (expected : List ParserId)
    (merged : Bool) : String :=
  let parsers := expected.map fun p => parserText (names.parser p)
  let shown :=
    if merged then [parenthesized parsers]
    else if parsers.isEmpty then []
    else [bracketed "[" parsers "]"]
  bracketed "NoParseError(" (Text.quotedString message :: state :: shown) ")"

/-- The text of an outcome. -/
def outcomeText (o : Outcome) : String :=
  "<Outcome." ++ o.constantName ++ ": " ++ Text.quotedString o.text ++ ">"

/-- The text of a reply made of the texts of its parts. -/
def replyText (outcome : Outcome) (value state : String) : String :=
  bracketed "Reply("
    ["outcome=" ++ outcomeText outcome, "value=" ++ value, "state=" ++ state] ")"

/-- The bounds of a range, with the step unless it is one. -/
def rangeText (start stop step : Int) : String :=
  let bounds := [toString start, toString stop]
  bracketed "range(" (if step = 1 then bounds else bounds ++ [toString step]) ")"

mutual

/-- The text of a value. -/
def render (names : Names) : Value → String
  | .none => "None"
  | .bool b => if b then "True" else "False"
  | .int n => toString n
  | .float bits => Decimal.text64 bits
  | .nan _ bits => Decimal.text64 bits
  | .text t => t.quoted
  | .list xs => bracketed "[" (renderAll names xs) "]"
  | .tuple xs => parenthesized (renderAll names xs)
  | .group xs => parenthesized (renderAll names xs)
  | .dict entries => bracketed "\x7b" (renderEntries names entries) "\x7d"
  | .ignored v => "_Ignored(" ++ render names v ++ ")"
  | .token name v => bracketed "Tok(" [render names name, render names v] ")"
  | .stream s => renderStream names s
  | .outcome o => outcomeText o
  | .failure e => renderError names e
  | .state s => renderState names s
  | .reply r => renderReply names r
termination_by structural v => v

/-- The texts of a list of values. -/
def renderAll (names : Names) : List Value → List String
  | [] => []
  | x :: xs => render names x :: renderAll names xs
termination_by structural xs => xs

/-- The texts of the entries of a dictionary. -/
def renderEntries (names : Names) : List (Value × Value) → List String
  | [] => []
  | (k, v) :: rest => (render names k ++ ": " ++ render names v) :: renderEntries names rest
termination_by structural xs => xs

/-- The text of a stream: the first element of a cell, the whole of a sequence. -/
def renderStream (names : Names) : Stream Value → String
  | .nil => "NIL"
  | .cons _ head _ => bracketed "Cons(" [render names head, "..."] ")"
  | .lazy _ head _ => bracketed "Cons(" [render names head, "..."] ")"
  | .view q i _ => bracketed "SequenceStream(" [renderSequence names q, toString i] ")"
  | .pulled c => "<stream of " ++ names.cell c ++ ">"
termination_by structural s => s

/-- The text of a sequence. -/
def renderSequence (names : Names) : Sequence Value → String
  | ⟨_, items⟩ => renderItems names items
termination_by structural q => q

/-- The text of the elements of a sequence, by its kind. -/
def renderItems (names : Names) : Items Value → String
  | .text ps => Text.quoted ⟨ps.toList⟩
  | .list xs => bracketed "[" (renderArray names xs) "]"
  | .tuple xs => parenthesized (renderArray names xs)
  | .octets ns => Text.quotedOctets ns.toList
  | .range start stop step => rangeText start stop step
termination_by structural items => items

/-- The texts of the elements of an array. -/
def renderArray (names : Names) : Array Value → List String
  | ⟨xs⟩ => renderAll names xs
termination_by structural xs => xs

/-- The text of a state: position and user state, inside the chunks that hold it. -/
def renderState (names : Names) : State Value → String
  | .plain _ _ p u => bracketed "State(" [toString p, render names u] ")"
  | .chunked _ c s => bracketed "IncrementalState(" [toString c, renderState names s] ")"
termination_by structural s => s

/-- The text of an error. -/
def renderError (names : Names) : ParseError Value → String
  | ⟨_, r, s, ps, merged⟩ => errorText names r.message (renderState names s) ps merged
termination_by structural e => e

/-- The text of a reply. -/
def renderReply (names : Names) : Reply Value → String
  | .ok c v s => replyText (.ofFlags true c) (render names v) (renderState names s)
  | .err c e s => replyText (.ofFlags false c) (renderError names e) (renderState names s)
termination_by structural r => r

end

end Value

/-- The text of a state. -/
def State.render (names : Names) (s : State Value) : String := Value.renderState names s

/-- The text of a stream. -/
def Stream.render (names : Names) (s : Stream Value) : String := Value.renderStream names s

namespace ParseError

/-- The names of the expected parsers, empty ones included. -/
def expectedNames (names : Names) (e : ParseError Value) : List String :=
  e.expected.map names.parser

/-- The message of an error with the names of what was expected, as far as they have one. -/
def text (names : Names) (e : ParseError Value) : String :=
  match (e.expectedNames names).filter (fun n => !n.isEmpty) with
  | [] => e.message
  | ns => e.message ++ ", expected: " ++ String.intercalate " or " ns

end ParseError

end ResumableParsing
