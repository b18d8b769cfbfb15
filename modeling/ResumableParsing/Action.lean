import ResumableParsing.Fault

/-!
# Actions of the caller

A grammar contains functions of the caller: predicates, maps, binders, handlers, the tails of lazy
streams. They are written as actions, which say step by step what they ask of the library. `W` is
the caller's own world; the library carries it along and never looks inside.

* `Pull`: what an iterator answers
* `Source`: what can be turned into a stream
* `Action`: a program of the caller, a monad
-/

namespace ResumableParsing

/-- What an iterator answers when it is asked for an element. -/
inductive Pull where
  /-- The next element. -/
  | item (v : Value)
  /-- There are no more elements. -/
  | finished
  /-- The iterator raised an error. -/
  | failed (f : Fault)

/-- What can be turned into a stream. -/
inductive Source where
  /-- Nothing: the empty stream. -/
  | none
  /-- A stream, taken as it is. -/
  | stream (s : Stream Value)
  /-- A finished sequence. -/
  | sequence (q : Sequence Value)
  /-- An iterator, read on demand. -/
  | iterator (it : IteratorId)

instance : Inhabited Source := ⟨.none⟩

/-- A program of the caller that produces an `α`. -/
inductive Action (W α : Type) where
  /-- The result is there. -/
  | done (a : α)
  /-- Breaks off with a fault. -/
  | raise (f : Fault)
  /-- Looks at the world. -/
  | inspect (k : W → Action W α)
  /-- Changes the world. -/
  | update (f : W → W) (next : Action W α)
  /-- Draws a serial number that nothing else has. -/
  | serial (k : Nat → Action W α)
  /-- Makes an iterator from its answers to the first, second, third question and so on. -/
  | iterator (answer : Nat → W → Pull × W) (k : IteratorId → Action W α)
  /-- Turns a source into a stream. -/
  | asStream (s : Source) (k : Stream Value → Action W α)
  /-- Asks whether a stream is empty. -/
  | isEmpty (s : Stream Value) (k : Bool → Action W α)
  /-- Asks for the first element of a stream. -/
  | first (s : Stream Value) (k : Value → Action W α)
  /-- Asks for the rest of a stream. -/
  | rest (s : Stream Value) (k : Stream Value → Action W α)
  /-- Puts two streams after one another. -/
  | append (a b : Stream Value) (k : Stream Value → Action W α)
  /-- Reads a stream to its end. -/
  | toList (s : Stream Value) (k : List Value → Action W α)
  /-- Replaces the input of a state. -/
  | setInput (s : State Value) (input : Stream Value) (k : State Value → Action W α)
  /-- Replaces the position of a state. -/
  | setPosition (s : State Value) (position : Int) (k : State Value → Action W α)
  /-- Replaces the user state of a state. -/
  | setUser (s : State Value) (user : Value) (k : State Value → Action W α)
  /-- Asks for the text of a value. -/
  | render (v : Value) (k : String → Action W α)
  /-- Asks whether a deferred result is known, and for its text. -/
  | peek (r : ResultId) (k : Bool → String → Action W α)
  /-- Asks for a deferred result, and goes on whether or not that raises a fault. -/
  | result (r : ResultId) (k : Except Fault Value → Action W α)
  /-- Asks for the result of a session. -/
  | finish (s : SessionId) (k : Value → Action W α)

namespace Action

variable {W α β : Type}

/-- Goes on with a program that depends on the result. -/
def bind : Action W α → (α → Action W β) → Action W β
  | done a, f => f a
  | raise e, _ => raise e
  | inspect k, f => inspect fun w => (k w).bind f
  | update g next, f => update g (next.bind f)
  | serial k, f => serial fun n => (k n).bind f
  | iterator g k, f => iterator g fun it => (k it).bind f
  | asStream s k, f => asStream s fun t => (k t).bind f
  | isEmpty s k, f => isEmpty s fun b => (k b).bind f
  | first s k, f => first s fun v => (k v).bind f
  | rest s k, f => rest s fun t => (k t).bind f
  | append a b k, f => append a b fun t => (k t).bind f
  | toList s k, f => toList s fun vs => (k vs).bind f
  | setInput s i k, f => setInput s i fun t => (k t).bind f
  | setPosition s p k, f => setPosition s p fun t => (k t).bind f
  | setUser s u k, f => setUser s u fun t => (k t).bind f
  | render v k, f => render v fun t => (k t).bind f
  | peek r k, f => peek r fun b t => (k b t).bind f
  | result r k, f => result r fun v => (k v).bind f
  | finish s k, f => finish s fun v => (k v).bind f

instance : Monad (Action W) where
  pure := done
  bind := bind

instance : Inhabited (Action W α) := ⟨raise .undefinedParser⟩

/-- Gives a value, or raises the fault that stands in its place. -/
def ofExcept : Except Fault α → Action W α
  | .ok a => done a
  | .error f => raise f

@[simp] theorem bind_done (a : α) (f : α → Action W β) : (done a).bind f = f a := rfl

@[simp] theorem bind_raise (e : Fault) (f : α → Action W β) : (raise e).bind f = raise e := rfl

end Action

end ResumableParsing
