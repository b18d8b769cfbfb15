/-!
# Trampolines

A computation that is cut into steps runs in constant stack space: each step leaves either another
step or the value.

* `Step`: what a step leaves
* `Step.run`: all steps up to the value
-/

namespace ResumableParsing

/-- What a step of a computation leaves: the rest of the computation, or its value. -/
inductive Step (σ α : Type) where
  /-- There is another step. -/
  | tail (s : σ)
  /-- The computation is over. -/
  | value (a : α)

namespace Step

variable {σ α : Type}

/-- Takes at most `fuel` further steps, and gives the value if they suffice. -/
def run (next : σ → Step σ α) : (fuel : Nat) → Step σ α → Option α
  | _, .value a => some a
  | 0, .tail _ => none
  | n + 1, .tail s => run next n (next s)

/-- The text of a step that is not the last one, given the name of the function that is called. -/
def tailText (quotedName : String) : String := "Tail(" ++ quotedName ++ ")"

end Step

end ResumableParsing
