import ResumableParsing.Repetition.Lazy
import ResumableParsing.Session.Drive

/-!
# Deferred parts

How deferred parts are computed: the first time they are asked for, and then never again. A part
that asks for itself while it is computed raises a fault, and a part whose computation raised a
fault is computed again the next time.

* `Memo.get`: the value of a deferred part
* `forceWithin`: the value of any deferred part, with a bound on nested computations
* `Eval.exec`, `Eval.execute`: a computation with a bound on its steps, or with a very large one
-/

namespace ResumableParsing

variable {W : Type}

/-! ## Single parts -/

/-- Where the store keeps the deferred parts of one kind. -/
structure Shelf (W θ α : Type) where
  /-- The part at a place. -/
  find : Nat → Store W → Option (Memo θ α)
  /-- Replaces what is known of the part at a place. -/
  put : Nat → Slot α → Store W → Store W

/-- Replaces what is known of a part. -/
def Memo.putSlot {θ α : Type} (memos : Array (Memo θ α)) (i : Nat) (slot : Slot α) :
    Array (Memo θ α) :=
  memos.modify i fun m => { m with slot := slot }

/-- The tails of lazy cells. -/
def Shelf.tails : Shelf W (Tail W) (Option (Stream Value)) where
  find i σ := σ.tails[i]?
  put i slot σ := { σ with tails := Memo.putSlot σ.tails i slot }

/-- The cells of streams that are read from iterators. -/
def Shelf.cells : Shelf W IteratorId (Option (Value × Stream Value)) where
  find i σ := σ.cells[i]?
  put i slot σ := { σ with cells := Memo.putSlot σ.cells i slot }

/-- The deferred results. -/
def Shelf.results : Shelf W (Action W Value) Value where
  find i σ := σ.results[i]?
  put i slot σ := { σ with results := Memo.putSlot σ.results i slot }

/-- The value of a deferred part, computed if it is not known. While it is computed it is marked
as busy, and a fault takes the mark away. -/
def Shelf.get {θ α : Type} (shelf : Shelf W θ α) (i : Nat) (compute : θ → Change W α) :
    Change W α := fun σ =>
  match shelf.find i σ with
  | none => .error .dangling σ
  | some m =>
    match m.slot with
    | .known a => .ok a σ
    | .busy => .error (.raised .reentrant) σ
    | .unset =>
      match compute m.thunk (shelf.put i .busy σ) with
      -- Other parts that were computed on the way keep their values in either case.
      | .ok a σ' => .ok a (shelf.put i (.known a) σ')
      | .error e σ' => .error e (shelf.put i .unset σ')

/-! ## All parts -/

/-- Computes the tail of a lazy cell. A parse that waits for a chunk is not gone on with. -/
def Tail.compute : Tail W → Eval W (Option (Stream Value))
  | .append a b => do return some (← (← a.rest).append b)
  | .parse p s => do
    match ← p.parseState s with
    | .ok v => return some (← Stream.ofValue v)
    | .error _ => return none
  | .action a => some <$> a.run

/-- Computes a deferred part, where at most `depth` computations are nested. -/
def forceWithin : (depth : Nat) → (d : Deferred) → Change W d.Content
  | 0, _ => throw .exhausted
  | n + 1, .tail i => Shelf.tails.get i.index fun t => t.compute ⟨n, forceWithin n⟩
  | n + 1, .cell i => Shelf.cells.get i.index fun it => it.pull ⟨n, forceWithin n⟩
  | n + 1, .result i => Shelf.results.get i.index fun a => a.run ⟨n, forceWithin n⟩
  | n + 1, .session i => i.finish ⟨n, forceWithin n⟩

/-- What a computation may use if its runs take at most `bound` steps and at most `bound`
computations of deferred parts are nested. -/
def Means.within (bound : Nat) : Means W := ⟨bound, forceWithin bound⟩

namespace Eval

variable {α : Type}

/-- Runs a computation within a bound. -/
def exec (x : Eval W α) (bound : Nat) (σ : Store W) : EStateM.Result Stop (Store W) α :=
  x (.within bound) σ

/-- More steps than a run takes before somebody stops waiting for it. -/
def patience : Nat := 1000000000000

/-- Runs a computation to its end. -/
def execute (x : Eval W α) (σ : Store W) : EStateM.Result Stop (Store W) α := x.exec patience σ

end Eval

end ResumableParsing
