import ResumableParsing.Stream.Reading
import ResumableParsing.Value.Equality

/-!
# Histories of chunks

Histories made from one another share a buffer as long as they do not diverge.

* `History.append`: the history with one more chunk
* `History.chunk`, `History.chunks`: reading a history
-/

namespace ResumableParsing.History

variable {W : Type}

/-- A history without chunks, in a buffer of its own. -/
def empty : Eval W History :=
  modifyGet fun σ => (⟨⟨σ.buffers.size⟩, 0⟩, { σ with buffers := σ.buffers.push #[] })

/-- The chunks of the history's buffer. -/
def contents (h : History) : Eval W (Array (Stream Value)) := do
  Eval.deref (← get).buffers[h.buffer.index]?

/-- The history with one more chunk. The buffer grows if the history ends where the buffer ends.
-/
def append (h : History) (chunk : Stream Value) : Eval W History := do
  let buffer ← h.contents
  if h.size = buffer.size then
    modify fun σ =>
      { σ with buffers := σ.buffers.modify h.buffer.index fun b => b.push chunk }
    return { h with size := h.size + 1 }
  else
    modifyGet fun σ =>
      (⟨⟨σ.buffers.size⟩, h.size + 1⟩,
        { σ with buffers := σ.buffers.push ((buffer.extract 0 h.size).push chunk) })

/-- The history has a chunk of this number; negative numbers are below every size. -/
def has (h : History) (i : Int) : Bool := i < h.size

/-- The chunk of a number. -/
def chunk (h : History) (i : Int) : Eval W (Stream Value) := do
  if 0 ≤ i ∧ i < h.size then Eval.deref (← h.contents)[i.toNat]?
  else Eval.fault (.chunkOutOfRange i)

/-- The chunks in order. -/
def chunks (h : History) : Eval W (List (Stream Value)) :=
  return ((← h.contents).extract 0 h.size).toList

/-- The histories have the same number of chunks, and equal ones. -/
def equal (g h : History) : Eval W Bool := do
  if g.size ≠ h.size then return false
  else return ((← g.chunks).zip (← h.chunks)).all fun c => c.1.beq c.2

/-- The text of a history. -/
def render (h : History) : Eval W String := do
  let chunks ← h.chunks
  return "ChunkHistory(" ++ (← get).render (.list (chunks.map .stream)) ++ ")"

end ResumableParsing.History
