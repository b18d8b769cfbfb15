import ResumableParsing.Json.Load
import ResumableParsing.Machine

/-!
# Command line

Reads a JSON document from standard input, line by line, and prints its value. A document with an
error is reported on standard error.
-/

namespace ResumableParsing

/-- The lines that are left in a stream of characters, each with its line feed. -/
partial def readLines (input : IO.FS.Stream) (done : List Text) : IO (List Text) := do
  let line ← input.getLine
  if line.isEmpty then return done.reverse
  else readLines input (Text.ofString line :: done)

/-- The report on a document, in a store of its own. -/
def documentReport (lines : List Text) : Json.Report :=
  match (Json.report lines).execute (.initial () fun _ w => w) with
  | .ok r _ => r
  | .error _ _ => ⟨"", "", 1⟩

end ResumableParsing

/-- Prints the value of the document on standard input. -/
def main : IO UInt32 := do
  let r := ResumableParsing.documentReport (← ResumableParsing.readLines (← IO.getStdin) [])
  IO.print r.output
  IO.eprint r.errors
  return r.code.toUInt32
