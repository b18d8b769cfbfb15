import ResumableParsing.Parser.Step
import ResumableParsing.Session.History

/-!
# Driving sessions

A session is fed chunk by chunk. It goes on until its parse needs a chunk that has not been
provided yet, or is over. After going back, a parse asks again for chunks that it has seen; those
are answered from the history.

* `SessionId.forceProvide`, `SessionId.provide`: the session after one more chunk
* `SessionId.finish`: the result of the parse at the end of the input
* `Session.start`, `ParserId.runSession`: new sessions
-/

namespace ResumableParsing

variable {W : Type}

namespace SessionId

/-- Adds a session to the store. -/
def make (s : Session W) : Eval W SessionId :=
  modifyGet fun σ => (⟨σ.sessions.size⟩, { σ with sessions := σ.sessions.push s })

/-- The session of a reference. -/
def session (i : SessionId) : Eval W (Session W) := do
  Eval.deref (← get).sessions[i.index]?

end SessionId

/-- What a session does with its next chunk; nothing if it is complete. -/
def Stage.feed (chunk : Stream Value) : Stage W → Eval W (Option (Finish W))
  | .ready p s => do
    let start ← State.inChunk 0 (← s.setInput chunk)
    return some (← p.run start)
  | .waiting r => return some (← r.resume chunk)
  | .complete _ => return none

/-- Answers requests for chunks of the history, as long as there are any. -/
def Finish.replay (chunks : History) : (steps : Nat) → Finish W → Eval W (Finish W)
  | 0, _ => throw .exhausted
  | n + 1, f =>
    match f with
    | .reply r => return .reply r
    | .request r => do
      if chunks.has r.chunk then Finish.replay chunks n (← r.resume (← chunks.chunk r.chunk))
      else return .request r

/-- How far a session has come when its parse ends or waits. The handler is not called yet. -/
def Finish.stage (handlers : Handlers W) (chunks : History) : Finish W → Eval W (Stage W)
  | .request r => do
    Eval.debug fun _ => "suspended, waiting for chunk " ++ toString r.chunk
    return .waiting r
  | .reply r => do
    let result ← ResultId.make (handlers.call r)
    Eval.debug fun _ => "completed after " ++ toString chunks.size ++ " chunks"
    return .complete result

namespace SessionId

/-- Feeds a chunk to a session, even an empty one. A complete session stays as it is. -/
def forceProvide (chunk : Source) (i : SessionId) : Eval W SessionId := do
  let s ← i.session
  if s.isDone then return i
  else
    let chunk ← chunk.asStream
    -- The buffer keeps the chunk even if the parse raises a fault below; no history shows it.
    let chunks ← s.chunks.append chunk
    match ← s.stage.feed chunk with
    | none => return i
    | some f =>
      let f ← Finish.replay chunks (← read).steps f
      make { s with stage := ← f.stage s.handlers chunks, chunks := chunks }

/-- Feeds a chunk to a session. An empty chunk changes nothing. -/
def provide (chunk : Source) (i : SessionId) : Eval W SessionId := do
  let chunk ← chunk.asStream
  -- The chunk is looked at before the session, so a source is asked for its first element.
  if ← chunk.isEmpty then return i
  else i.forceProvide (.stream chunk)

/-- The complete session at the end of the input. -/
def completeFor : (steps : Nat) → SessionId → Eval W ResultId
  | 0, _ => throw .exhausted
  | n + 1, i => do
    let i ← i.forceProvide .none
    match (← i.session).stage with
    | .complete result => return result
    | _ => i.completeFor n

/-- The result of a session at the end of the input: the handler's answer. -/
def finish (i : SessionId) : Eval W Value := do
  let result ← i.completeFor (← read).steps
  Eval.force (.result result)

/-- The session with one more chunk in its history, which its parse has not seen. -/
def addChunk (chunk : Stream Value) (i : SessionId) : Eval W SessionId := do
  let s ← i.session
  make { s with chunks := ← s.chunks.append chunk }

end SessionId

namespace ParserId

/-- A session that parses from a state, whose input is provided as the first chunk. -/
def startSession (p : ParserId) (s : State Value) (handlers : Handlers W) : Eval W SessionId := do
  let i ← SessionId.make ⟨.ready p s, handlers, ← History.empty⟩
  i.provide (.stream s.input)

/-- A session that parses from the beginning of an empty input. -/
def startEmpty (p : ParserId) (user : Value) (handlers : Handlers W) : Eval W SessionId :=
  p.startSession (.plain false .nil 0 user) handlers

end ParserId

end ResumableParsing
