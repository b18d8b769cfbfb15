import ResumableParsing.Stream.Reading

/-!
# Moving states

States are never changed. Moving past a token, or replacing a part of a state, makes another
state. A state inside a chunk gets a new memory each time, because the step past its first token
may differ.

* `State.inChunk`: a state inside a chunk
* `State.setInput`, `State.setPosition`, `State.setUser`: replacing a part
* `State.advance`: the state after the first token of a plain state
-/

namespace ResumableParsing.State

variable {W : Type}

/-- A state whose input is the rest of a chunk. -/
def inChunk (chunk : Int) (inner : State Value) : Eval W (State Value) :=
  modifyGet fun σ =>
    (.chunked ⟨σ.advances.size⟩ chunk inner, { σ with advances := σ.advances.push {} })

/-- Replaces a part of the plain state inside all chunks. -/
def alter (f : (watched : Bool) → Stream Value → Int → Value → State Value) :
    State Value → Eval W (State Value)
  | .plain w i p u => pure (f w i p u)
  | .chunked _ c s => do inChunk c (← s.alter f)

/-- The state with another input. -/
def setInput (s : State Value) (input : Stream Value) : Eval W (State Value) :=
  s.alter fun w _ p u => .plain w input p u

/-- The state at another position. -/
def setPosition (s : State Value) (position : Int) : Eval W (State Value) :=
  s.alter fun w i _ u => .plain w i position u

/-- The state with another user state. -/
def setUser (s : State Value) (user : Value) : Eval W (State Value) :=
  s.alter fun w i p _ => .plain w i p user

/-- The state after the first token of the input. -/
def advance (s : State Value) : Eval W (State Value) := do
  let next ← s.input.rest
  s.alter fun w _ p u => .plain w next (p + 1) u

end ResumableParsing.State
