import ResumableParsing.Parser.Step

/-!
# Parsing in direct style

The meaning of parsers without continuations. A parser is a program that starts other parsers and
looks at their replies; the four outcomes (success or failure, after consuming or not) are the four
shapes of a reply. A state inside a chunk asks for the next chunk when it moves past the last token.

* `Direct`: programs that change the store, start jobs and ask for chunks
* `Body.direct`, `Job.direct`: the program of each combinator
* `Direct.Ends`: the big-step relation, with the answers to the requests for chunks
* `Evaluates`: what a job comes to
-/

namespace ResumableParsing

variable {W : Type}

/-! ## Programs -/

/-- What a program starts, and gets a reply from. -/
inductive Job (W : Type) where
  /-- A parser, run in a state. -/
  | parser (p : ParserId) (s : State Value)
  /-- A run function, run in a state. -/
  | code (c : Code W) (s : State Value)
  /-- Moving a state past its first token. -/
  | past (s : State Value) (token : Value)

/-- A program in direct style. -/
inductive Direct (W : Type) (α : Type) : Type 1 where
  /-- The result is there. -/
  | done (a : α)
  /-- Does something with the store. -/
  | act {β : Type} (x : Eval W β) (k : β → Direct W α)
  /-- Runs a job to its reply. -/
  | call (j : Job W) (k : Reply Value → Direct W α)
  /-- Asks for the chunk of a number. -/
  | ask (chunk : Int) (k : Stream Value → Direct W α)

namespace Direct

variable {α β : Type}

/-- Goes on with a program that depends on the result. -/
def bind : Direct W α → (α → Direct W β) → Direct W β
  | done a, f => f a
  | act x k, f => act x fun b => (k b).bind f
  | call j k, f => call j fun r => (k r).bind f
  | ask n k, f => ask n fun c => (k c).bind f

instance : Monad (Direct W) where
  pure := done
  bind := bind

/-- The result of a change of the store. -/
def eval (x : Eval W α) : Direct W α := act x done

/-- The reply of a job. -/
def reply (j : Job W) : Direct W (Reply Value) := call j done

/-- The chunk of a number. -/
def chunk (n : Int) : Direct W (Stream Value) := ask n done

@[simp] theorem pure_eq (a : α) : (pure a : Direct W α) = done a := rfl

@[simp] theorem bind_eq (x : Direct W α) (f : α → Direct W β) : (x >>= f) = x.bind f := rfl

@[simp] theorem done_bind (a : α) (f : α → Direct W β) : (done a : Direct W α).bind f = f a := rfl

@[simp] theorem act_bind {γ : Type} (x : Eval W γ) (k : γ → Direct W α) (f : α → Direct W β) :
    (act x k).bind f = act x fun b => (k b).bind f := rfl

@[simp] theorem call_bind (j : Job W) (k : Reply Value → Direct W α) (f : α → Direct W β) :
    (call j k).bind f = call j fun r => (k r).bind f := rfl

@[simp] theorem ask_bind (n : Int) (k : Stream Value → Direct W α) (f : α → Direct W β) :
    (ask n k).bind f = ask n fun c => (k c).bind f := rfl

end Direct

/-! ## The programs of the combinators -/

/-- The success, without consuming, of moving to a state. -/
def Reply.arrival (s : State Value) : Reply Value := .ok false (.state s) s

/-- The failure, without consuming, at a state where certain parsers were expected. -/
def Direct.refuse (reason : Reason) (expected : List ParserId) (s : State Value) :
    Direct W (Reply Value) := do
  return .err false ⟨← eval Eval.serial, reason, s, expected, false⟩ s

/-- The cell of a parser. -/
def ParserId.found (p : ParserId) : Eval W (Cell W) := do
  Eval.deref (← get).parsers[p.index]?

open Direct (eval reply chunk refuse)

/-- Reports the attempt, and then runs the definition behind the logging method. -/
def ParserId.directLogged (p : ParserId) (s : State Value) : Direct W (Reply Value) := do
  eval (Eval.debug fun σ => "trying " ++ σ.parserName p)
  match (← eval p.found).logged with
  | some c => reply (.code c s)
  | none => eval (Eval.fault .undefinedParser)

/-- Goes where the step past the first token leads: to the next state of the same chunk, or into
the chunk after it. -/
def Advance.direct (m : Advance) (n : Int) : Direct W (Reply Value) := do
  let s ← eval (Eval.deref m.next)
  if m.exhausted then
    let c ← chunk (n + 1)
    return .arrival (← eval (do State.inChunk (n + 1) (← s.setInput c)))
  else return .arrival s

/-- Moves a state past its first token. A state inside a chunk remembers where that leads. -/
def State.directNext (s : State Value) (token : Value) : Direct W (Reply Value) :=
  match s with
  | .plain watched i p u => do
    if watched then eval (modify fun σ => { σ with world := σ.watch token σ.world })
    let t ← eval (State.plain watched i p u).advance
    eval (Eval.debug fun _ => "trying " ++ Task.settleName)
    return .arrival t
  | .chunked a c inner => do
    eval (a.alter fun m => { m with token := m.token.orElse fun _ => some token })
    let m ← eval a.memory
    if m.next.isSome then m.direct c
    else
      match inner with
      | .plain false i p u => do
        eval (do a.remember c (← (State.plain false i p u).advance))
        (← eval a.memory).direct c
      | inner => do
        let r ← reply (.past inner (m.token.getD .none))
        eval (a.remember c r.state)
        (← eval a.memory).direct c

/-- What a parser does, given the replies of the parsers that it starts. -/
def Body.direct (b : Body W) (s : State Value) : Direct W (Reply Value) :=
  match b with
  | .some self accepts => do
    if ← eval s.input.isEmpty then refuse .endOfInput [self] s
    else
      let token ← eval s.input.first
      if ← eval (accepts token).run then
        let r ← reply (.past s token)
        eval (Eval.debug fun σ =>
          "*matched* " ++ σ.render token ++ ", new state = " ++ r.state.place)
        return .ok true token r.state
      else
        eval (Eval.debug fun σ => "failed " ++ σ.render token ++ ", state = " ++ s.place ++
          ", expected = " ++ σ.parserName self)
        refuse (.unexpected ((← eval get).render token)) [self] s
  | .pure v => return .ok false v s
  | .fail m => refuse (.custom m) [] s
  | .finished self => do
    if ← eval s.input.isEmpty then return .ok false .none s
    else
      let token ← eval s.input.first
      refuse (.unexpected ((← eval get).render token)) [self] s
  | .undeclared => eval (Eval.fault .undefinedDeclaration)
  | .seq p q c => do
    match ← reply (.parser p s) with
    | .err d e t => return .err d e t
    | .ok d v t =>
      match ← reply (.parser q t) with
      | .err d' e u => return .err (d || d') e u
      | .ok d' w u => return .ok (d || d') (← eval (c.join v w)) u
  | .alt p q => do
    match ← reply (.parser p s) with
    | .err false e _ =>
      match ← reply (.parser q s) with
      | .err false e' t => return .err false (e.merge (← eval Eval.serial) e') t
      | r => return r
    | r => return r
  | .map p f => do
    match ← reply (.parser p s) with
    | .ok d v t => return .ok d (← eval (f v).run) t
    | .err d e t => return .err d e t
  | .bind p f => do
    match ← reply (.parser p s) with
    | .err d e t => return .err d e t
    | .ok d v t =>
      let g ← eval (f v).run
      let r ← reply (.parser (← eval (Eval.ofBuild g.build)) t)
      return if d then r.consume else r
  | .ignore inner => do
    match ← reply (.code inner s) with
    | .ok d v t => return .ok d v.ignore t
    | .err d e t => return .err d e t
  | .attempt p => do
    match ← reply (.parser p s) with
    | .err true e _ => return .err false e s
    | r => return r
  | .many self p => do
    match ← reply (.parser p s) with
    | .err false _ _ => return .ok false (.stream .nil) s
    | .err true e t => return .err true e t
    | .ok false _ _ => eval (Eval.fault (.endlessRepetition ((← eval get).parserName self)))
    | .ok true v t =>
      match ← reply (.parser self t) with
      | .ok _ w u => return .ok true (← eval (Combine.cons.join v w)) u
      | .err _ e u => return .err true e u
  | .cell v again => do
    return .ok false (.stream (← eval (Stream.lazyCell v (.parse again s)))) s
  | .native run => eval (run s).run
  | .after p run => do
    let r ← reply (.parser p s)
    eval (run s r).run

/-- The program of a job. -/
def Job.direct : Job W → Direct W (Reply Value)
  | .parser p s => do
    match (← eval p.found).direct with
    | some c => reply (.code c s)
    | none => p.directLogged s
  | .code (.body b) s => b.direct s
  | .code (.method p) s => p.directLogged s
  | .past s token => s.directNext token

/-! ## The big-step relation -/

/-- What a program comes to. -/
inductive Upshot where
  /-- A reply. -/
  | reply (r : Reply Value)
  /-- It breaks off. -/
  | stop (e : Stop)
  /-- It waits for the chunk of a number. -/
  | waits (chunk : Int)

/-- The answers to requests for chunks, in order: each number that was asked for, and the chunk
that was given. -/
abbrev Answers := List (Int × Stream Value)

/-- `x.Ends m σ cs u σ'`: run in the store `σ`, with its requests for chunks answered by `cs`, the
program `x` comes to `u` and leaves the store `σ'`. -/
inductive Direct.Ends (m : Means W) :
    Direct W (Reply Value) → Store W → Answers → Upshot → Store W → Prop where
  /-- The reply is there. -/
  | done {r : Reply Value} {σ : Store W} : Ends m (.done r) σ [] (.reply r) σ
  /-- The store is changed, and the program goes on. -/
  | act {β : Type} {x : Eval W β} {k : β → Direct W (Reply Value)} {b : β} {σ σ₁ σ' : Store W}
      {cs : Answers} {u : Upshot} :
      x m σ = .ok b σ₁ → Ends m (k b) σ₁ cs u σ' → Ends m (.act x k) σ cs u σ'
  /-- The change of the store breaks off. -/
  | actStop {β : Type} {x : Eval W β} {k : β → Direct W (Reply Value)} {e : Stop}
      {σ σ' : Store W} :
      x m σ = .error e σ' → Ends m (.act x k) σ [] (.stop e) σ'
  /-- A job replies, and the program goes on. -/
  | call {j : Job W} {k : Reply Value → Direct W (Reply Value)} {r : Reply Value}
      {σ σ₁ σ' : Store W} {cs ds : Answers} {u : Upshot} :
      Ends m j.direct σ cs (.reply r) σ₁ → Ends m (k r) σ₁ ds u σ' →
      Ends m (.call j k) σ (cs ++ ds) u σ'
  /-- A job breaks off, and the program with it. -/
  | callStop {j : Job W} {k : Reply Value → Direct W (Reply Value)} {e : Stop} {σ σ' : Store W}
      {cs : Answers} :
      Ends m j.direct σ cs (.stop e) σ' → Ends m (.call j k) σ cs (.stop e) σ'
  /-- A job waits for a chunk, and the program with it. -/
  | callWaits {j : Job W} {k : Reply Value → Direct W (Reply Value)} {n : Int} {σ σ' : Store W}
      {cs : Answers} :
      Ends m j.direct σ cs (.waits n) σ' → Ends m (.call j k) σ cs (.waits n) σ'
  /-- A request is answered. -/
  | ask {n : Int} {c : Stream Value} {k : Stream Value → Direct W (Reply Value)}
      {σ σ' : Store W} {cs : Answers} {u : Upshot} :
      Ends m (k c) σ cs u σ' → Ends m (.ask n k) σ ((n, c) :: cs) u σ'
  /-- A request has no answer yet. -/
  | askWaits {n : Int} {k : Stream Value → Direct W (Reply Value)} {σ : Store W} :
      Ends m (.ask n k) σ [] (.waits n) σ

/-- What a job comes to. -/
abbrev Evaluates (m : Means W) (j : Job W) : Store W → Answers → Upshot → Store W → Prop :=
  Direct.Ends m j.direct

end ResumableParsing
