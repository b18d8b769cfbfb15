import ResumableParsing.Store

/-!
# Reading streams

Streams are read by three questions: whether there is anything, what comes first, and what
follows. Only the last two steps into a lazy cell or an iterator compute anything, and what they
compute is kept.

* `Stream.isEmpty`, `Stream.first`, `Stream.rest`: the three questions
* `Stream.append`, `Source.asStream`: making streams
* `Stream.toList`, `Stream.walk`: reading many elements
* `IteratorId.pull`: asking an iterator
-/

namespace ResumableParsing

variable {W : Type}

namespace Stream

/-! ## The three questions -/

/-- A view has nothing left from its index on. -/
def viewIsEmpty (q : Sequence Value) (index : Int) : Bool := (q.size : Int) ≤ index

/-- The stream has no elements. -/
def isEmpty : Stream Value → Eval W Bool
  | .nil => pure true
  | .cons .. => pure false
  | .lazy .. => pure false
  | .view q i _ => pure (viewIsEmpty q i)
  | .pulled c => do
    let found ← Eval.force (.cell c)
    return found.isNone

/-- The first element. -/
def first : Stream Value → Eval W Value
  | .nil => Eval.fault .emptyStream
  | .cons _ head _ => pure head
  | .lazy _ head _ => pure head
  | .view q i _ =>
    if viewIsEmpty q i then Eval.fault .emptyStream
    else
      match q.get? i with
      | some v => pure v
      | none => Eval.fault (.indexOutOfRange q.items.kind)
  | .pulled c => do
    match ← Eval.force (.cell c) with
    | some (v, _) => pure v
    | none => Eval.fault .emptyStream

/-- What follows the first element. The rest of an empty stream is empty. -/
def rest : Stream Value → Eval W (Stream Value)
  | .nil => pure .nil
  | .cons _ _ tail => pure tail
  | .lazy _ _ tail => do
    match ← Eval.force (.tail tail) with
    | some s => pure s
    | none => Eval.fault .waitingTail
  | s@(.view q i _) => pure (if viewIsEmpty q i then s else .view q (i + 1) none)
  | .pulled c => do
    match ← Eval.force (.cell c) with
    | some (_, s) => pure s
    | none => pure .nil

/-! ## Making streams -/

/-- A cell with a known tail. -/
def consCell (v : Value) (tail : Stream Value) : Eval W (Stream Value) := do
  return .cons (← Eval.serial) v tail

/-- A cell whose tail is computed on demand. -/
def lazyCell (v : Value) (tail : Tail W) : Eval W (Stream Value) := do
  let n ← Eval.serial
  let i : TailId ← modifyGet fun σ =>
    (⟨σ.tails.size⟩, { σ with tails := σ.tails.push ⟨tail, .unset⟩ })
  return .lazy n v i

/-- One stream after another. Only the first element of the first stream is looked at. -/
def append (a b : Stream Value) : Eval W (Stream Value) := do
  if ← a.isEmpty then return b
  else lazyCell (← a.first) (.append a b)

/-- A view of a whole sequence, held by the caller. -/
def ofSequence (q : Sequence Value) (index : Int) : Eval W (Stream Value) := do
  return .view q index (some (← Eval.serial))

/-- A stream of what an iterator gives from now on. -/
def ofIterator (it : IteratorId) : Eval W (Stream Value) :=
  modifyGet fun σ => (.pulled ⟨σ.cells.size⟩, { σ with cells := σ.cells.push ⟨it, .unset⟩ })

/-- The stream held by the caller: a view that moved forward gets a handle. -/
def hold : Stream Value → Eval W (Stream Value)
  | .view q i none => ofSequence q i
  | s => pure s

/-- The stream that a value is. -/
def ofValue : Value → Eval W (Stream Value)
  | .stream s => pure s
  | _ => Eval.fault .notAStream

/-! ## Reading many elements -/

/-- The elements in front of `s`, the latest first, and then the elements of `s`. -/
def toListFrom : (steps : Nat) → (done : List Value) → Stream Value → Eval W (List Value)
  | 0, _, _ => throw .exhausted
  | n + 1, done, s => do
    if ← s.isEmpty then return done.reverse
    else
      let v ← s.first
      let t ← s.rest
      toListFrom n (v :: done) t

/-- All elements of a finite stream. -/
def toList (s : Stream Value) : Eval W (List Value) := do
  toListFrom (← read).steps [] s

/-- The first `limit` elements, or all of them if there are fewer. What follows the last of them
is not asked for. -/
def takeFrom : (limit : Nat) → (done : List Value) → Stream Value → Eval W (List Value)
  | 0, done, _ => return done.reverse
  | n + 1, done, s => do
    if ← s.isEmpty then return done.reverse
    else
      let v ← s.first
      if n = 0 then return (v :: done).reverse
      else takeFrom n (v :: done) (← s.rest)

/-- The first `limit` elements of a stream. -/
def take (s : Stream Value) (limit : Nat) : Eval W (List Value) := takeFrom limit [] s

/-- What follows the first element has been computed already. -/
def isForced : Stream Value → Eval W Bool
  | .lazy _ _ tail => return ((← get).tails[tail.index]?.bind Memo.known?).isSome
  | _ => return true

/-- What a walk along a stream shows. -/
structure Walk where
  /-- The elements, the latest first. -/
  elements : List Value
  /-- There are more elements. -/
  cut : Bool := false
  /-- The fault that broke the walk off. -/
  raised : Option Fault := none

/-- At most `limit` elements of a stream, up to the first fault. -/
def walkFrom : (limit : Nat) → (done : List Value) → Stream Value → Eval W Walk
  | 0, done, s => do
    match ← Eval.catching s.isEmpty with
    | .ok empty => return { elements := done, cut := !empty }
    | .error f => return { elements := done, raised := some f }
  | n + 1, done, s => do
    match ← Eval.catching s.isEmpty with
    | .ok true => return { elements := done }
    | .error f => return { elements := done, raised := some f }
    | .ok false =>
      match ← Eval.catching s.first with
      | .error f => return { elements := done, raised := some f }
      | .ok v =>
        match ← Eval.catching s.rest with
        | .error f => return { elements := v :: done, raised := some f }
        | .ok t => walkFrom n (v :: done) t

end Stream

/-! ## Sources -/

/-- The stream of a source. A stream is taken as it is. -/
def Source.asStream : Source → Eval W (Stream Value)
  | .none => pure .nil
  | .stream s => pure s
  | .sequence q => Stream.ofSequence q 0
  | .iterator it => Stream.ofIterator it

/-! ## Iterators -/

/-- What is left of an iterator that has been asked for an element. The end of a walk is reached
until the element has been found, so a fault on the way leaves it there. -/
def Iterator.moved : Iterator W → Iterator W
  | .caller answer asked => .caller answer (asked + 1)
  | .items q i => .items q (i + 1)
  | .walk .. => .walk .nil true
  | .spent => .spent

/-- The walk goes on behind the first element of a stream. -/
def Iterator.onward (s : Stream Value) : Iterator W → Iterator W
  | .walk .. => .walk s true
  | left => left

namespace IteratorId

/-- Adds an iterator to the store. -/
def make (it : Iterator W) : Eval W IteratorId :=
  modifyGet fun σ => (⟨σ.iterators.size⟩, { σ with iterators := σ.iterators.push it })

/-- Changes what is left of an iterator. -/
def alter (it : IteratorId) (f : Iterator W → Iterator W) : Eval W Unit :=
  modify fun σ => { σ with iterators := σ.iterators.modify it.index f }

/-- The next element of an iterator. A walk along a stream that meets a fault is over. -/
def next (it : IteratorId) : Eval W (Option Value) := do
  let now ← Eval.deref (← get).iterators[it.index]?
  it.alter Iterator.moved
  match now with
  | .spent => return none
  | .items q i => return q.items.get? i
  | .walk s given =>
    let s ← if given then s.rest else pure s
    if ← s.isEmpty then return none
    else
      let v ← s.first
      it.alter (Iterator.onward s)
      return some v
  | .caller answer asked =>
    match ← modifyGet fun σ =>
      let (p, w) := answer asked σ.world
      (p, { σ with world := w }) with
    | .item v => return some v
    | .finished => return none
    | .failed f => Eval.fault f

/-- The next element of an iterator, and the stream of what it gives after that. -/
def pull (it : IteratorId) : Eval W (Option (Value × Stream Value)) := do
  match ← it.next with
  | none => return none
  | some v => return some (v, ← Stream.ofIterator it)

end IteratorId

/-- An iterator over a source, which a stream can be read from whatever the source is. -/
def Source.iterate : Source → Eval W IteratorId
  | .none => IteratorId.make .spent
  | .stream s => IteratorId.make (.walk s false)
  | .sequence q => IteratorId.make (.items q 0)
  | .iterator it => pure it

/-- The stream of the elements of a source, each taken when it is looked at for the first time. -/
def Source.fromIterable (s : Source) : Eval W (Stream Value) := do
  Stream.ofIterator (← s.iterate)

end ResumableParsing
