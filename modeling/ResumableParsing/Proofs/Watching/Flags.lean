import Mathlib.Data.List.Forall2
import ResumableParsing.Proofs.Grammar.Library

/-!
# Watched and unwatched states

A plain state is watched or not, and whether it is decides only how a state inside a chunk is moved
past its first token. Here is what it means that two states, and what is made of them, are the same
but for that.

* `State.Alike`, `ParseError.Alike`, `Reply.Alike`, `Value.Alike`, `Stop.Alike`: the same, except
  that the one may be watched and the other not
* `Action.Matches`: programs that ask the library the same things
* `Handlers.IgnoreWatching`: handlers that take no notice of who is watched
-/

namespace ResumableParsing

variable {W α β : Type}

/-! ## States, errors and replies -/

/-- The states are the same, except that the one may be watched and the other not. -/
inductive State.Alike : State Value → State Value → Prop where
  | plain (watched watched' : Bool) (input : Stream Value) (position : Int) (user : Value) :
      Alike (.plain watched input position user) (.plain watched' input position user)
  | chunked (advance : AdvanceId) (chunk : Int) {s t : State Value} :
      Alike s t → Alike (.chunked advance chunk s) (.chunked advance chunk t)

/-- The errors are the same, except for who is watched. -/
structure ParseError.Alike (e f : ParseError Value) : Prop where
  /-- What went wrong. -/
  reason : e.reason = f.reason
  /-- Where it went wrong. -/
  state : e.state.Alike f.state
  /-- What could have stood there. -/
  expected : e.expected = f.expected
  /-- Whether it comes from a choice. -/
  merged : e.merged = f.merged

/-- The replies are the same, except for who is watched. -/
inductive Reply.Alike : Reply Value → Reply Value → Prop where
  | ok (consumed : Bool) (v : Value) {s t : State Value} :
      s.Alike t → Alike (.ok consumed v s) (.ok consumed v t)
  | err (consumed : Bool) {e f : ParseError Value} {s t : State Value} :
      e.Alike f → s.Alike t → Alike (.err consumed e s) (.err consumed f t)

/-- The values are the same, except for who is watched among the states that they hold. -/
inductive Value.Alike : Value → Value → Prop where
  | same (v : Value) : Alike v v
  | state {s t : State Value} : s.Alike t → Alike (.state s) (.state t)
  | failure {e f : ParseError Value} : e.Alike f → Alike (.failure e) (.failure f)
  | reply {r r' : Reply Value} : r.Alike r' → Alike (.reply r) (.reply r')
  | list {vs us : List Value} : List.Forall₂ Alike vs us → Alike (.list vs) (.list us)
  | tuple {vs us : List Value} : List.Forall₂ Alike vs us → Alike (.tuple vs) (.tuple us)

/-- The faults are the same, except for who is watched. -/
inductive Fault.Alike : Fault → Fault → Prop where
  | same (f : Fault) : Alike f f
  | noParse {e f : ParseError Value} : e.Alike f → Alike (.noParse e) (.noParse f)

/-- The reasons to break off are the same, except for who is watched. -/
inductive Stop.Alike : Stop → Stop → Prop where
  | same (e : Stop) : Alike e e
  | raised {f g : Fault} : f.Alike g → Alike (.raised f) (.raised g)

theorem State.Alike.refl (s : State Value) : s.Alike s := by
  induction s with
  | plain w i p u => exact .plain w w i p u
  | chunked a c s ih => exact .chunked a c ih

theorem State.Alike.symm {s t : State Value} (h : s.Alike t) : t.Alike s := by
  induction h with
  | plain w w' i p u => exact .plain w' w i p u
  | chunked a c _ ih => exact .chunked a c ih

theorem State.Alike.input_eq {s t : State Value} (h : s.Alike t) : s.input = t.input := by
  induction h with
  | plain => rfl
  | chunked _ _ _ ih => exact ih

theorem State.Alike.position_eq {s t : State Value} (h : s.Alike t) : s.position = t.position := by
  induction h with
  | plain => rfl
  | chunked _ _ _ ih => exact ih

/-! ## Programs of the caller -/

/-- The programs ask the library the same things, and go on alike with what it answers. Neither
looks into deferred results and sessions, or makes other states. -/
inductive Action.Matches : Action W Value → Action W Value → Prop where
  | done {v u : Value} : v.Alike u → Matches (.done v) (.done u)
  | raise {f g : Fault} : f.Alike g → Matches (.raise f) (.raise g)
  | inspect {k l : W → Action W Value} :
      (∀ w, Matches (k w) (l w)) → Matches (.inspect k) (.inspect l)
  | update (f : W → W) {a b : Action W Value} : Matches a b → Matches (.update f a) (.update f b)
  | serial {k l : Nat → Action W Value} :
      (∀ n, Matches (k n) (l n)) → Matches (.serial k) (.serial l)
  | iterator (answer : Nat → W → Pull × W) {k l : IteratorId → Action W Value} :
      (∀ it, Matches (k it) (l it)) → Matches (.iterator answer k) (.iterator answer l)
  | asStream (source : Source) {k l : Stream Value → Action W Value} :
      (∀ s, Matches (k s) (l s)) → Matches (.asStream source k) (.asStream source l)
  | isEmpty (s : Stream Value) {k l : Bool → Action W Value} :
      (∀ b, Matches (k b) (l b)) → Matches (.isEmpty s k) (.isEmpty s l)
  | first (s : Stream Value) {k l : Value → Action W Value} :
      (∀ v, Matches (k v) (l v)) → Matches (.first s k) (.first s l)
  | rest (s : Stream Value) {k l : Stream Value → Action W Value} :
      (∀ t, Matches (k t) (l t)) → Matches (.rest s k) (.rest s l)
  | append (s t : Stream Value) {k l : Stream Value → Action W Value} :
      (∀ u, Matches (k u) (l u)) → Matches (.append s t k) (.append s t l)
  | toList (s : Stream Value) {k l : List Value → Action W Value} :
      (∀ vs, Matches (k vs) (l vs)) → Matches (.toList s k) (.toList s l)
  | render (v : Value) {k l : String → Action W Value} :
      (∀ t, Matches (k t) (l t)) → Matches (.render v k) (.render v l)

/-- A program that asks the same things as another one is detached. -/
theorem Action.Matches.detached {a b : Action W Value} (h : a.Matches b) : b.Detached := by
  induction h with
  | done => trivial
  | raise => trivial
  | inspect _ ih => exact ih
  | update _ _ ih => exact ih
  | serial _ ih => exact ih
  | iterator _ _ ih => exact ih
  | asStream _ _ ih => exact ih
  | isEmpty _ _ ih => exact ih
  | first _ _ ih => exact ih
  | rest _ _ ih => exact ih
  | append _ _ _ ih => exact ih
  | toList _ _ ih => exact ih
  | render _ _ ih => exact ih

/-- The handlers take no notice of who is watched. -/
def Handlers.IgnoreWatching (h : Handlers W) : Prop :=
  ∀ r r' : Reply Value, r.Alike r' → (h.call r).Matches (h.call r')

/-- The handlers that give the value or raise the error take no notice. -/
theorem Handlers.ignoreWatching_value : (Handlers.value : Handlers W).IgnoreWatching := by
  intro r r' h
  cases h with
  | ok consumed v _ => exact .done (.same v)
  | err consumed he _ => exact .raise (.noParse he)

end ResumableParsing
