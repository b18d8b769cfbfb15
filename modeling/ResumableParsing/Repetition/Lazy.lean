import ResumableParsing.Parser.Step

/-!
# Lazy repetition

A parser applied again and again to the input, as a stream of the results. Nothing past the first
result is parsed until the rest of the stream is asked for, so the input may be endless. The
stream ends where the parser fails without consuming; where it fails after consuming, the tail
raises the error.

* `ParserId.repeatedly`: the parser of the whole stream
* `ParserId.runMany`: the stream of results from a state
-/

namespace ResumableParsing.ParserId

variable {W : Type}

/-- The parser of the stream of results. Each cell runs the whole parser again from its own state.
-/
def repeatedly (p : ParserId) : Build W ParserId := do
  -- The cells refer to the whole parser, which is defined by means of them.
  let all ← Build.forward
  let cells ← Build.bind p fun v => .done (.cell v all)
  all.define (← Build.optional cells (.stream .nil))
  all.named ("\x7b " ++ (← p.name) ++ " \x7d*")

/-- The stream of results of applying a parser from a state on. -/
def runMany (p : ParserId) (s : State Value) : Eval W (Except (Request W) Value) := do
  let all ← Eval.ofBuild p.repeatedly
  all.parseState s

end ResumableParsing.ParserId
