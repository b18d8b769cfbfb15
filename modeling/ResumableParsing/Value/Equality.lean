import ResumableParsing.Decimal.Binary
import ResumableParsing.Value.Basic

/-!
# Equality of values

Numbers are equal if they are the same real number, whatever their kind, and truth values count as
0 and 1. Containers are equal by contents, where the kinds of tuple do not differ and a dictionary
has no order. A value that is not a number is unequal even to itself, but a container finds it
again. Streams are equal if they are the same stream, or views of the same sequence from the same
index, and errors are equal only to themselves.

* `Stream.same`, `Stream.beq`: identity and equality of streams
* `Value.beq`, `Value.alike`: equality of values, on their own and inside containers
* `State.equal`: equality of states
-/

namespace ResumableParsing

/-! ## Streams -/

namespace Stream

variable {α : Type}

/-- The two are one and the same stream. -/
def same : Stream α → Stream α → Bool
  | .nil, .nil => true
  | .cons a _ _, .cons b _ _ => a == b
  | .lazy a _ _, .lazy b _ _ => a == b
  | .view _ _ (some a), .view _ _ (some b) => a == b
  | .pulled a, .pulled b => a == b
  | _, _ => false

/-- The two are the same stream, or view the same sequence from the same index. -/
def beq : Stream α → Stream α → Bool
  | .view p i _, .view q j _ => p.serial == q.serial && i == j
  | a, b => a.same b

end Stream

/-! ## Numbers -/

namespace Value

/-- The integer that a truth value or an integer counts as. -/
def integer? : Value → Option Int
  | .bool b => some (if b then 1 else 0)
  | .int n => some n
  | _ => .none

/-- Two numbers are equal, and at least one of them is a number in the first place. -/
def beqNumber (a b : Value) : Bool :=
  match a.integer?, b.integer? with
  | some m, some n => m == n
  | some m, .none =>
    match b with
    | .float y => (Binary64.ofBits y).isInt m
    | _ => false
  | .none, some n =>
    match a with
    | .float x => (Binary64.ofBits x).isInt n
    | _ => false
  | .none, .none =>
    match a, b with
    | .float x, .float y => Binary64.sameNumber (.ofBits x) (.ofBits y)
    | _, _ => false

/-! ## Values -/

mutual

/-- Equality of two values. A value that is not a number equals nothing, except that an `inner`
value, an element of a container, is equal to itself. -/
def beqAt (inner : Bool) : Value → Value → Bool
  | .none, b => match b with
    | .none => true
    | _ => false
  | .bool x, b => beqNumber (.bool x) b
  | .int x, b => beqNumber (.int x) b
  | .float x, b => beqNumber (.float x) b
  | .nan m _, b => match b with
    | .nan n _ => inner && m == n
    | _ => false
  | .text s, b => match b with
    | .text t => s == t
    | _ => false
  | .list xs, b => match b with
    | .list ys => beqList xs ys
    | _ => false
  | .tuple xs, b => match b.tuple? with
    | some ys => beqList xs ys
    | .none => false
  | .group xs, b => match b.tuple? with
    | some ys => beqList xs ys
    | .none => false
  | .dict xs, b => match b with
    | .dict ys => xs.length == ys.length && beqEntries xs ys
    | _ => false
  | .ignored x, b => match b with
    | .ignored y => beqAt inner x y
    | _ => false
  | .token m x, b => match b with
    | .token n y => beqAt true m n && beqAt true x y
    | _ => false
  | .stream s, b => match b with
    | .stream t => s.beq t
    | _ => false
  | .outcome o, b => match b with
    | .outcome p => o == p
    | _ => false
  | .failure e, b => match b with
    | .failure f => e.serial == f.serial
    | _ => false
  | .state s, b => match b with
    | .state t => beqState inner s t
    | _ => false
  | .reply r, b => match b.tuple? with
    | some ys => beqReply r ys
    | .none => false
termination_by structural x => x

/-- Lists of equal length with equal elements. -/
def beqList : List Value → List Value → Bool
  | [], ys => ys.isEmpty
  | x :: xs, ys => match ys with
    | [] => false
    | y :: ys => beqAt true x y && beqList xs ys
termination_by structural xs => xs

/-- Each of the entries has an equal one among the others. -/
def beqEntries : List (Value × Value) → List (Value × Value) → Bool
  | [], _ => true
  | (k, v) :: xs, ys =>
    ys.any (fun e => beqAt true k e.1 && beqAt true v e.2) && beqEntries xs ys
termination_by structural xs => xs

/-- States with equal inputs, positions and user states, in chunks of the same numbers. -/
def beqState (inner : Bool) : State Value → State Value → Bool
  | .plain _ i p u, b => match b with
    | .plain _ j q v => i.beq j && p == q && beqAt inner u v
    | .chunked .. => false
  | .chunked _ c s, b => match b with
    | .plain .. => false
    | .chunked _ d t => c == d && beqState inner s t
termination_by structural s => s

/-- The reply is a tuple of equal elements. -/
def beqReply : Reply Value → List Value → Bool
  | .ok c v s, ys => match ys with
    | [.outcome o, w, .state t] => .ofFlags true c == o && beqAt true v w && beqState true s t
    | _ => false
  | .err c e s, ys => match ys with
    | [.outcome o, .failure f, .state t] =>
      .ofFlags false c == o && e.serial == f.serial && beqState true s t
    | _ => false
termination_by structural r => r

end

/-- Equality of two values. -/
def beq (v w : Value) : Bool := beqAt false v w

/-- Equality of two elements of containers: they are the same, or equal. -/
def alike (v w : Value) : Bool := beqAt true v w

instance : BEq Value := ⟨beq⟩

end Value

/-- Equality of two states. -/
def State.equal (s t : State Value) : Bool := Value.beqState false s t

instance : BEq (State Value) := ⟨State.equal⟩

end ResumableParsing
