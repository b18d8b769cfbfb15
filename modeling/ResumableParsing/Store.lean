import ResumableParsing.Session.Basic

/-!
# The store

Everything that changes while grammars are built and run: parsers, iterators, parts that are
computed on demand, the chunks of sessions, the log, and the world of the caller. Computations
that use the store form the monad `Eval`.

* `Memo`: a part that is computed on demand, and then kept
* `Store`: everything that changes
* `Eval`: computations over the store; `force` computes deferred parts
* `Build`: the computations that build parsers, which cannot fail
-/

namespace ResumableParsing

/-! ## Deferred parts -/

/-- What is known of a deferred part. -/
inductive Slot (α : Type) where
  /-- Nothing yet. -/
  | unset
  /-- It is being computed. -/
  | busy
  /-- Its value. -/
  | known (a : α)

/-- A deferred part: the computation and what is known of its result. -/
structure Memo (θ α : Type) where
  /-- What computes the part. -/
  thunk : θ
  /-- What is known of it. -/
  slot : Slot α := .unset

/-- The value, if it is known. -/
def Memo.known? {θ α : Type} (m : Memo θ α) : Option α :=
  match m.slot with
  | .known a => some a
  | _ => none

/-- What computes the tail of a stream. -/
inductive Tail (W : Type) where
  /-- The rest of the first stream and then the second. -/
  | append (a b : Stream Value)
  /-- The value of a parser, run from a state. -/
  | parse (p : ParserId) (s : State Value)
  /-- A computation of the caller. -/
  | action (a : Action W (Stream Value))

/-- An iterator. -/
inductive Iterator (W : Type) where
  /-- The caller answers; `asked` counts the questions so far. -/
  | caller (answer : Nat → W → Pull × W) (asked : Nat)
  /-- The elements of a sequence from an index on. -/
  | items (q : Sequence Value) (index : Nat)
  /-- The elements of a stream; `given` tells that its first element has been handed out. -/
  | walk (s : Stream Value) (given : Bool)
  /-- Nothing more. -/
  | spent

/-- What a state inside a chunk remembers of the step past its first token. -/
structure Advance where
  /-- The token with which the step was first asked for. -/
  token : Option Value := none
  /-- The state behind the token, once somebody has moved past it. -/
  next : Option (State Value) := none
  /-- Somebody has found the chunk exhausted behind the token. This is never taken back, so from
  then on the next chunk is asked for. -/
  exhausted : Bool := false

/-! ## The store -/

/-- Everything that changes. -/
structure Store (W : Type) where
  /-- The world of the caller. -/
  world : W
  /-- What the caller does when a watched state is asked to move past a token. -/
  watch : Value → W → W
  /-- Logging is on. -/
  logging : Bool := false
  /-- The messages logged so far, the latest first. -/
  log : List String := []
  /-- The next serial number. -/
  nextSerial : Nat := 0
  /-- Iterators. -/
  iterators : Array (Iterator W) := #[]
  /-- Tails of lazy cells; nothing where the parse of a tail waits for a chunk. -/
  tails : Array (Memo (Tail W) (Option (Stream Value))) := #[]
  /-- Cells of streams that are read from an iterator: an element and what follows, or the end. -/
  cells : Array (Memo IteratorId (Option (Value × Stream Value))) := #[]
  /-- Deferred results. -/
  results : Array (Memo (Action W Value) Value) := #[]
  /-- What states inside chunks remember. -/
  advances : Array Advance := #[]
  /-- Parsers. -/
  parsers : Array (Cell W) := #[]
  /-- Chunks of sessions. -/
  buffers : Array (Array (Stream Value)) := #[]
  /-- Sessions. -/
  sessions : Array (Session W) := #[]

/-- The parser at the end of the input, which every store holds. -/
def ParserId.finished : ParserId := ⟨0⟩

namespace Store

variable {W : Type}

/-- A store that holds only the parser at the end of the input. -/
def initial (world : W) (watch : Value → W → W) : Store W where
  world := world
  watch := watch
  parsers := #[{ name := "end of input", direct := some (.body (.finished .finished)) }]

/-- The name of a parser. -/
def parserName (σ : Store W) (p : ParserId) : String :=
  match σ.parsers[p.index]? with
  | some c => c.name
  | none => ""

/-! ### Texts of what the store holds -/

/-- The text of a deferred part, given the text of its value. -/
def memoText {α : Type} (text : α → String) (known : Option α) : String :=
  match known with
  | some a => "Memo(" ++ text a ++ ")"
  | none => "Memo(<pending>)"

/-- The text of a cell that has been read: nothing at the end, otherwise the element and what
follows it. At most `fuel` cells are shown one inside another. -/
def cellText (σ : Store W) : (fuel : Nat) → CellId → String
  | 0, _ => "..."
  | fuel + 1, c =>
    let names : Names := ⟨σ.cellText fuel, σ.parserName⟩
    let shown : Option (Value × Stream Value) → String
      | none => "None"
      | some (v, s) => Value.parenthesized [v.render names, s.render names]
    match σ.cells[c.index]? with
    | some m => memoText shown m.known?
    | none => "..."

/-- The names of the store. A cell leads only to cells made after it, so every cell is shown. -/
def names (σ : Store W) : Names := ⟨σ.cellText (σ.cells.size + 1), σ.parserName⟩

/-- The text of a value. -/
def render (σ : Store W) (v : Value) : String := v.render σ.names

end Store

/-! ## Computations -/

/-- Why a computation has no result. -/
inductive Stop where
  /-- A fault was raised. -/
  | raised (f : Fault)
  /-- The steps allotted to the computation did not suffice. -/
  | exhausted
  /-- A reference led nowhere. -/
  | dangling

/-- The parts that are computed on demand. -/
inductive Deferred where
  /-- The tail of a lazy cell. -/
  | tail (i : TailId)
  /-- A cell of a stream that is read from an iterator. -/
  | cell (i : CellId)
  /-- A deferred result. -/
  | result (i : ResultId)
  /-- The result of a session. -/
  | session (i : SessionId)

/-- What a deferred part holds once it is computed. -/
abbrev Deferred.Content : Deferred → Type
  | .tail _ => Option (Stream Value)
  | .cell _ => Option (Value × Stream Value)
  | .result _ => Value
  | .session _ => Value

/-- Computations that change the store or break off; what was changed before stays changed. -/
abbrev Change (W : Type) := EStateM Stop (Store W)

/-- What a computation may use. -/
structure Means (W : Type) where
  /-- The number of steps that a run may take. -/
  steps : Nat
  /-- Computes a deferred part. -/
  force : (d : Deferred) → Change W d.Content

/-- Computations over the store that can ask for deferred parts. -/
abbrev Eval (W : Type) := ReaderT (Means W) (Change W)

/-- Computations that build parsers. -/
abbrev Build (W : Type) := StateM (Store W)

namespace Eval

variable {W α : Type}

/-- Raises a fault. -/
def fault (f : Fault) : Eval W α := throw (.raised f)

/-- Computes a deferred part. -/
def force (d : Deferred) : Eval W d.Content := fun means => means.force d

/-- The value of a reference. -/
def deref (a : Option α) : Eval W α :=
  match a with
  | some a => pure a
  | none => throw .dangling

/-- A computation that builds. -/
def ofBuild (b : Build W α) : Eval W α := fun _ σ =>
  match b σ with
  | (a, σ') => .ok a σ'

/-- The fault that a computation raises, as a value. -/
def catching (x : Eval W α) : Eval W (Except Fault α) := fun means σ =>
  match x means σ with
  | .ok a σ' => .ok (.ok a) σ'
  | .error (.raised f) σ' => .ok (.error f) σ'
  | .error e σ' => .error e σ'

/-- Adds a message to the log, if logging is on. -/
def debug (message : Store W → String) : Eval W Unit :=
  modify fun σ => if σ.logging then { σ with log := message σ :: σ.log } else σ

/-- Draws a serial number. -/
def serial : Eval W Nat :=
  modifyGet fun σ => (σ.nextSerial, { σ with nextSerial := σ.nextSerial + 1 })

/-! ### Running computations

Each operation as a function of the means and the store. -/

@[simp] theorem run_pure (a : α) (m : Means W) (σ : Store W) :
    (pure a : Eval W α) m σ = .ok a σ := rfl

@[simp] theorem run_bind {β : Type} (x : Eval W α) (f : α → Eval W β) (m : Means W) (σ : Store W) :
    (x >>= f) m σ = match x m σ with
      | .ok a σ' => f a m σ'
      | .error e σ' => .error e σ' := by
  change EStateM.bind (x m) (fun a => f a m) σ = _
  unfold EStateM.bind
  cases x m σ <;> rfl

@[simp] theorem run_map {β : Type} (f : α → β) (x : Eval W α) (m : Means W) (σ : Store W) :
    (f <$> x) m σ = match x m σ with
      | .ok a σ' => .ok (f a) σ'
      | .error e σ' => .error e σ' := by
  change EStateM.map f (x m) σ = _
  unfold EStateM.map
  cases x m σ <;> rfl

@[simp] theorem run_get (m : Means W) (σ : Store W) : (get : Eval W (Store W)) m σ = .ok σ σ := rfl

@[simp] theorem run_modify (f : Store W → Store W) (m : Means W) (σ : Store W) :
    (modify f : Eval W Unit) m σ = .ok () (f σ) := rfl

@[simp] theorem run_modifyGet (f : Store W → α × Store W) (m : Means W) (σ : Store W) :
    (modifyGet f : Eval W α) m σ = .ok (f σ).1 (f σ).2 := by
  rfl

@[simp] theorem run_read (m : Means W) (σ : Store W) :
    (read : Eval W (Means W)) m σ = .ok m σ := rfl

@[simp] theorem run_throw (e : Stop) (m : Means W) (σ : Store W) :
    (throw e : Eval W α) m σ = .error e σ := rfl

@[simp] theorem run_fault (f : Fault) (m : Means W) (σ : Store W) :
    (fault f : Eval W α) m σ = .error (.raised f) σ := rfl

@[simp] theorem run_force (d : Deferred) (m : Means W) (σ : Store W) :
    (force d : Eval W d.Content) m σ = m.force d σ := rfl

@[simp] theorem deref_some (a : α) : (deref (some a) : Eval W α) = pure a := rfl

@[simp] theorem deref_none : (deref none : Eval W α) = throw .dangling := rfl

@[simp] theorem run_ofBuild (b : Build W α) (m : Means W) (σ : Store W) :
    ofBuild b m σ = .ok (b σ).1 (b σ).2 := rfl

@[simp] theorem run_serial (m : Means W) (σ : Store W) :
    serial m σ = .ok σ.nextSerial { σ with nextSerial := σ.nextSerial + 1 } := rfl

@[simp] theorem run_debug (message : Store W → String) (m : Means W) (σ : Store W) :
    debug message m σ =
      .ok () (if σ.logging then { σ with log := message σ :: σ.log } else σ) := rfl

end Eval

end ResumableParsing
