import ResumableParsing.Json.Grammar
import ResumableParsing.Session.Drive

/-!
# Loading JSON documents

A document in one piece or in chunks, and the report on a document that is read line by line.

* `Json.parseText`, `Json.load`, `Json.loadChunks`: the value of a document
* `Json.report`: what is printed for a document
-/

namespace ResumableParsing.Json

variable {W : Type}

/-- A text as a source of code points. -/
def textSource (t : Text) : Eval W Source := do
  return .sequence ⟨← Eval.serial, .text t.points.toArray⟩

/-- The value of a document in one piece, read by a parser. -/
def parseText (p : ParserId) (t : Text) : Eval W Value := do
  let input ← (← textSource t).asStream
  match ← p.parseState (.plain false input 0 .none) with
  | .ok v => return v
  | .error _ => return .none

/-- The value of a document in one piece. -/
def load (t : Text) : Eval W Value := do
  parseText (← Eval.ofBuild document) t

/-- Provides texts to a session one after another. -/
def provideAll (session : SessionId) : List Text → Eval W SessionId
  | [] => return session
  | t :: ts => do provideAll (← session.provide (← textSource t)) ts

/-- The value of a document in chunks. -/
def loadChunks (chunks : List Text) : Eval W Value := do
  let p ← Eval.ofBuild document
  let session ← p.startEmpty .none .value
  (← provideAll session chunks).finish

/-! ## Reports -/

mutual

/-- The value with the entries of every dictionary in the order of their keys. -/
def sorted : Value → Value
  | .list vs => .list (sortedAll vs)
  | .dict entries =>
    .dict ((sortedEntries entries).mergeSort fun a b =>
      decide ((textOf a.1).points ≤ (textOf b.1).points))
  | v => v
termination_by structural v => v

/-- The values of a list, sorted inside. -/
def sortedAll : List Value → List Value
  | [] => []
  | v :: vs => sorted v :: sortedAll vs
termination_by structural vs => vs

/-- The entries of a dictionary, sorted inside. -/
def sortedEntries : List (Value × Value) → List (Value × Value)
  | [] => []
  | (k, v) :: rest => (k, sorted v) :: sortedEntries rest
termination_by structural entries => entries

end

/-- What is printed, where, and the exit code. -/
structure Report where
  /-- Standard output. -/
  output : String
  /-- Standard error. -/
  errors : String
  /-- The exit code. -/
  code : UInt8

/-- The report on a document that is given line by line: its value with sorted keys, or the error.
-/
def report (lines : List Text) : Eval W Report := do
  match ← Eval.catching (loadChunks lines) with
  | .ok v => return ⟨(← get).render (sorted v) ++ "\n", "", 0⟩
  | .error f => return ⟨"", "syntax error: " ++ f.message (← get).names ++ "\n", 1⟩

/-- The lines of a text, each with the line feed that ends it. -/
def linesOf : List CodePoint → List (List CodePoint)
  | [] => []
  | p :: ps =>
    if p = 10 then [p] :: linesOf ps
    else
      match linesOf ps with
      | [] => [[p]]
      | l :: ls => (p :: l) :: ls

end ResumableParsing.Json
