import ResumableParsing.Action.Run
import ResumableParsing.Grammar.Build
import ResumableParsing.Trampoline

/-!
# Steps of a parse

A parse is a sequence of small steps. A step runs one parser up to the point where it starts
another parser or replies, or hands a reply to one frame of the continuation.

* `Body.enter`: what a parser does when it is started
* `Frame.resume`: what it does with the reply of a parser that it has started
* `Task.step`: one step
* `Request.resume`: how a parse goes on in a new chunk
-/

namespace ResumableParsing

variable {W : Type}

/-! ## Moving past a token -/

/-- What is remembered of the step past the first token. -/
def AdvanceId.memory (a : AdvanceId) : Eval W Advance := do
  Eval.deref (← get).advances[a.index]?

/-- Changes what is remembered of the step past the first token. -/
def AdvanceId.alter (a : AdvanceId) (f : Advance → Advance) : Eval W Unit :=
  modify fun σ => { σ with advances := σ.advances.modify a.index f }

/-- Records where the step past the first token of a state inside a chunk leads: `inner` is the
state behind the token. -/
def AdvanceId.remember (a : AdvanceId) (chunk : Int) (inner : State Value) : Eval W Unit := do
  -- The look at what is left may raise a fault; then nothing is recorded.
  if ← inner.input.isEmpty then a.alter fun m => { m with next := some inner, exhausted := true }
  else
    let s ← State.inChunk chunk inner
    a.alter fun m => { m with next := some s }

/-- The success of a parser that consumes nothing and replies with the state that it moves to. -/
def Task.arrive (s : State Value) (k : Continuation W) : Task W :=
  .deliver (.ok false (.state s) s) k

/-- The name of the parser that moves to a state. -/
def Task.settleName : String := "(set state)"

/-- Goes where the step past the first token leads, as far as that is known: to the next state of
the same chunk, or to a request for the next chunk. -/
def Advance.go (m : Advance) (chunk : Int) (k : Continuation W) :
    Eval W (Step (Task W) (Finish W)) := do
  let s ← Eval.deref m.next
  if m.exhausted then return .value (.request ⟨chunk + 1, s, k⟩)
  else return .tail (.arrive s k)

/-- The task of the parser that moves a state past its first token. A plain state moves at once; a
state inside a chunk keeps the token with which it was asked first. -/
def State.next (s : State Value) (token : Value) (k : Continuation W) : Eval W (Task W) :=
  match s with
  | .plain watched .. => do
    if watched then modify fun σ => { σ with world := σ.watch token σ.world }
    return .settle (← s.advance) k
  | .chunked a c inner => do
    a.alter fun m => { m with token := m.token.orElse fun _ => some token }
    return .cross a c inner k

/-- The name of the parser that moves a state past its first token. -/
def State.nextName (s : State Value) (token : Value) : Eval W String := do
  match ← s.next token [] with
  | .cross a _ _ _ =>
    return "(next " ++ (← get).render ((← a.memory).token.getD .none) ++ ")"
  | _ => return Task.settleName

/-- Moves past the first token of a state inside a chunk. The way is found once and then
remembered. An ordinary plain state is moved directly, any other state by its own parser. -/
def AdvanceId.cross (a : AdvanceId) (chunk : Int) (inner : State Value) (k : Continuation W) :
    Eval W (Step (Task W) (Finish W)) := do
  let m ← a.memory
  if m.next.isSome then m.go chunk k
  else
    match inner with
    | .plain false .. => do
      a.remember chunk (← inner.advance)
      (← a.memory).go chunk k
    | _ => return .tail (← inner.next (m.token.getD .none) (.crossed a chunk :: k))

/-! ## Starting a parser -/

/-- The failure, without consuming, of a parser at a state where others were expected. -/
def Task.refuse (reason : Reason) (expected : List ParserId) (s : State Value)
    (k : Continuation W) : Eval W (Task W) := do
  return .deliver (.err false ⟨← Eval.serial, reason, s, expected, false⟩ s) k

/-- What a parser does when it is started in a state. -/
def Body.enter (b : Body W) (s : State Value) (k : Continuation W) : Eval W (Task W) :=
  match b with
  | .some self accepts => do
    if ← s.input.isEmpty then
      Task.refuse .endOfInput [self] s k
    else
      let token ← s.input.first
      if ← (accepts token).run then s.next token (.matched token :: k)
      else
        Eval.debug fun σ => "failed " ++ σ.render token ++ ", state = " ++ s.place ++
          ", expected = " ++ σ.parserName self
        Task.refuse (.unexpected ((← get).render token)) [self] s k
  | .pure v => return .deliver (.ok false v s) k
  | .fail m => Task.refuse (.custom m) [] s k
  | .finished self => do
    if ← s.input.isEmpty then return .deliver (.ok false .none s) k
    else
      let token ← s.input.first
      Task.refuse (.unexpected ((← get).render token)) [self] s k
  | .undeclared => Eval.fault .undefinedDeclaration
  | .seq p q c => return .run p s (.seqFirst q c :: k)
  | .alt p q => return .run p s (.altFirst q s :: k)
  | .map p f => return .run p s (.map f :: k)
  | .bind p f => return .run p s (.bind f :: k)
  | .ignore inner => return .code inner s (.ignore :: k)
  | .attempt p => return .run p s (.attempt s :: k)
  | .many self p => return .run p s (.manyItem self p s :: k)
  | .cell v again => do
    let cell ← Stream.lazyCell v (.parse again s)
    return .deliver (.ok false (.stream cell) s) k
  | .native run => return .deliver (← (run s).run) k
  | .after p run => return .run p s (.after s run :: k)

/-! ## Receiving a reply -/

/-- The result of two parsers in sequence. -/
def Combine.join (c : Combine) (v w : Value) : Eval W Value :=
  match c with
  | .first => return v
  | .second => return w
  | .group =>
    match v with
    | .group vs => return .group (vs ++ [w])
    | _ => return .group [v, w]
  | .cons =>
    match w with
    | .stream s => return .stream (← Stream.consCell v s)
    -- Another value is refused only when the tail is asked for.
    | _ => return .stream (← Stream.lazyCell v (.action (.raise .notAStream)))
  | .append => return .stream (← (← Stream.ofValue v).append (← Stream.ofValue w))

/-- The result of a parser that is to be left out. A result is not marked twice. -/
def Value.ignore : Value → Value
  | .ignored v => .ignored v
  | v => .ignored v

/-- What a parser does with the reply of a parser that it has started. -/
def Frame.resume (f : Frame W) (r : Reply Value) (k : Continuation W) :
    Eval W (Step (Task W) (Finish W)) :=
  match f with
  | .seqFirst q c =>
    match r with
    | .ok consumed v s => return .tail (.run q s (.seqSecond consumed v c :: k))
    | .err .. => return .tail (.deliver r k)
  | .seqSecond consumed v c =>
    match r with
    | .ok d w s => return .tail (.deliver (.ok (consumed || d) (← c.join v w) s) k)
    | .err d e s => return .tail (.deliver (.err (consumed || d) e s) k)
  | .altFirst q start =>
    match r with
    | .err false e _ => return .tail (.run q start (.altSecond e :: k))
    | _ => return .tail (.deliver r k)
  | .altSecond first =>
    match r with
    | .err false e s => return .tail (.deliver (.err false (first.merge (← Eval.serial) e) s) k)
    | _ => return .tail (.deliver r k)
  | .map f =>
    match r with
    | .ok consumed v s => return .tail (.deliver (.ok consumed (← (f v).run) s) k)
    | .err .. => return .tail (.deliver r k)
  | .bind f =>
    match r with
    | .ok consumed v s => do
      -- The grammar is built now, and its parsers take their names now.
      let g ← (f v).run
      let q ← Eval.ofBuild g.build
      return .tail (.run q s (if consumed then .consume :: k else k))
    | .err .. => return .tail (.deliver r k)
  | .consume => return .tail (.deliver r.consume k)
  | .ignore =>
    match r with
    | .ok consumed v s => return .tail (.deliver (.ok consumed v.ignore s) k)
    | .err .. => return .tail (.deliver r k)
  | .attempt start =>
    match r with
    | .err true e _ => return .tail (.deliver (.err false e start) k)
    | _ => return .tail (.deliver r k)
  | .manyItem self _ start =>
    match r with
    -- No further item: the repetition ends in the state before it.
    | .err false _ _ => return .tail (.deliver (.ok false (.stream .nil) start) k)
    | .err true .. => return .tail (.deliver r k)
    | .ok false .. => do Eval.fault (.endlessRepetition ((← get).parserName self))
    -- The repetition itself runs again, under whatever definition it has by now.
    | .ok true v s => return .tail (.run self s (.manyRest v :: k))
  | .manyRest v =>
    match r with
    | .ok _ w s => return .tail (.deliver (.ok true (← Combine.cons.join v w) s) k)
    | .err _ e s => return .tail (.deliver (.err true e s) k)
  | .matched token => do
    Eval.debug fun σ => "*matched* " ++ σ.render token ++ ", new state = " ++ r.state.place
    return .tail (.deliver (.ok true token r.state) k)
  | .crossed a chunk => do
    a.remember chunk r.state
    (← a.memory).go chunk k
  | .after start run => return .tail (.deliver (← (run start r).run) k)

/-! ## Steps -/

namespace Task

/-- Starts a parser through its logging method. -/
def startLogged (p : ParserId) (s : State Value) (k : Continuation W) : Eval W (Task W) := do
  Eval.debug fun σ => "trying " ++ σ.parserName p
  match (← Eval.deref (← get).parsers[p.index]?).logged with
  | some c => return .code c s k
  | none => Eval.fault .undefinedParser

/-- One step of a parse. -/
def step : Task W → Eval W (Step (Task W) (Finish W))
  | .run p s k => do
    -- The run function is looked up at this moment, so a later definition is seen.
    match (← Eval.deref (← get).parsers[p.index]?).direct with
    | some c => return .tail (.code c s k)
    | none => return .tail (← startLogged p s k)
  | .code (.body b) s k => return .tail (← b.enter s k)
  | .code (.method p) s k => return .tail (← startLogged p s k)
  | .settle s k => do
    Eval.debug fun _ => "trying " ++ settleName
    return .tail (.arrive s k)
  | .cross a chunk inner k => a.cross chunk inner k
  | .deliver r [] => return .value (.reply r)
  | .deliver r (f :: k) => f.resume r k

/-- At most `steps` steps of a parse, up to its end. -/
def runFor : (steps : Nat) → Task W → Eval W (Finish W)
  | 0, _ => throw .exhausted
  | n + 1, t => do
    match ← t.step with
    | .tail t => runFor n t
    | .value f => return f

/-- A parse up to its end. -/
def complete (t : Task W) : Eval W (Finish W) := do t.runFor (← read).steps

end Task

/-- Goes on with a parse that has waited for a chunk. -/
def Request.resume (r : Request W) (chunk : Stream Value) : Eval W (Finish W) := do
  let s ← State.inChunk r.chunk (← r.state.setInput chunk)
  (Task.arrive s r.continuation).complete

/-! ## Running parsers -/

/-- The value of a finished parse, or the fault of a failed one. A parse that waits stays a
request. -/
def Finish.value : Finish W → Eval W (Except (Request W) Value)
  | .reply (.ok _ v _) => return .ok v
  | .reply (.err _ e _) => Eval.fault (.noParse e)
  | .request r => return .error r

namespace ParserId

/-- Runs a parser from a state. -/
def run (p : ParserId) (s : State Value) : Eval W (Finish W) := (Task.run p s []).complete

/-- Runs a parser from a state and gives the parsed value. -/
def parseState (p : ParserId) (s : State Value) : Eval W (Except (Request W) Value) := do
  (← p.run s).value

end ParserId

end ResumableParsing
