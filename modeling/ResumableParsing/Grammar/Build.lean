import ResumableParsing.Store
import ResumableParsing.Value.Equality

/-!
# Building parsers

The combinators as functions that add parsers to the store. A parser that combines others takes
its name from the names that they have at that moment, and looks up what they do when it runs.

* `ParserId.define`, `ParserId.setName`: changing a parser
* `Build.plus`, `Build.or`, `Build.many` and so on: the combinators
* `Grammar.build`: the parsers of a whole grammar
-/

namespace ResumableParsing

variable {W : Type}

/-! ## Cells -/

/-- Adds a cell to the store. -/
def ParserId.make (c : Cell W) : Build W ParserId :=
  modifyGet fun σ => (⟨σ.parsers.size⟩, { σ with parsers := σ.parsers.push c })

/-- Changes the cell of a parser. -/
def ParserId.alter (p : ParserId) (f : Cell W → Cell W) : Build W Unit :=
  modify fun σ => { σ with parsers := σ.parsers.modify p.index f }

/-- The cell of a parser. -/
def ParserId.cell (p : ParserId) : Build W (Cell W) := return (← get).parsers[p.index]?.getD {}

/-- The name of a parser. -/
def ParserId.name (p : ParserId) : Build W String := return (← get).parserName p

/-- Gives a parser another name. -/
def ParserId.setName (p : ParserId) (name : String) : Build W Unit :=
  p.alter fun c => { c with name := name }

/-- The parser itself, under another name. -/
def ParserId.named (p : ParserId) (name : String) : Build W ParserId := do
  p.setName name
  return p

/-- Defines a parser as another one: it takes the run function and the name that the other has
now. -/
def ParserId.define (p source : ParserId) : Build W Unit := do
  let c ← source.cell
  let logging := (← get).logging
  p.alter fun d => { d.define logging (c.code source) with name := c.name }

namespace Build

/-- A new parser with the given run function. The body may refer to the parser itself. -/
def body (name : String) (b : ParserId → Body W) : Build W ParserId := do
  let σ ← get
  let self : ParserId := ⟨σ.parsers.size⟩
  ParserId.make (({ name := name } : Cell W).define σ.logging (.body (b self)))

/-! ## Primitive parsers -/

/-- One token that satisfies a predicate. -/
def some (accepts : Value → Action W Bool) : Build W ParserId :=
  body "some(...)" fun self => .some self accepts

/-- The value after which the parser of a token is named: the token itself, or the name that it
carries. -/
def tokenName : Value → Value
  | .token name _ => name
  | .outcome o => .ofString o.constantName
  | v => v

/-- One token equal to a value. -/
def token (v : Value) : Build W ParserId := do
  let name := (← get).render (tokenName v)
  (← some fun t => .done (t.beq v)).named name

/-- Nothing; the result is the value. -/
def pure (v : Value) : Build W ParserId := do
  body ("(pure " ++ (← get).render v ++ ")") fun _ => .pure v

/-- Always a failure with the message. -/
def fail (message : String) : Build W ParserId :=
  body ("(fail " ++ Text.quotedString message ++ ")") fun _ => .fail message

/-- A parser that is to be defined later. -/
def forward : Build W ParserId := body "forward_decl()" fun _ => .undeclared

/-- A parser without definition. -/
def undefined (name : String) : Build W ParserId := ParserId.make { name := name }

/-! ## Sequence and choice -/

/-- Two parsers in sequence. -/
def seq (p q : ParserId) (c : Combine) : Build W ParserId := body "" fun _ => .seq p q c

/-- Two names between brackets. -/
def pairName (a b : String) : String := "(" ++ a ++ ", " ++ b ++ ")"

/-- A parser whose result sequential combination leaves out. -/
def skip (p : ParserId) : Build W ParserId := do
  let c ← p.cell
  let i ← body c.name fun _ => .ignore (c.code p)
  i.alter fun c => { c with ignored := true }
  return i

/-- A parser that is left out, and in debug mode keeps the definition of the other parser. -/
def skipSeq (p q : ParserId) : Build W ParserId := do
  skip (← seq p q .second)

/-- Two parsers in sequence, where the parts to be left out are known by their parsers. -/
def plus (p q : ParserId) : Build W ParserId := do
  let a ← p.cell
  let b ← q.cell
  let r ← match a.ignored, b.ignored with
    | true, true => skipSeq p q
    | true, false => seq p q .second
    | false, true => seq p q .first
    | false, false => seq p q .group
  r.named (pairName a.name b.name)

/-- One parser, or the other if it fails without consuming. -/
def or (p q : ParserId) : Build W ParserId := do
  body ((← p.name) ++ " or " ++ (← q.name)) fun _ => .alt p q

/-- The result of a parser, transformed. -/
def map (p : ParserId) (f : Value → Action W Value) : Build W ParserId := do
  body (← p.name) fun _ => .map p f

/-- A parser, then the grammar that depends on its result. -/
def bind (p : ParserId) (f : Value → Action W (Grammar W)) : Build W ParserId := do
  body ("(" ++ (← p.name) ++ " >>=)") fun _ => .bind p f

/-- A parser that goes back to its start if it fails. -/
def attempt (p : ParserId) : Build W ParserId := do
  body (← p.name) fun _ => .attempt p

/-- A parser, or the value if it fails without consuming. -/
def optional (p : ParserId) (default : Value) : Build W ParserId := do
  let q ← pure default
  (← or p q).named ("[ " ++ (← p.name) ++ " ]")

/-! ## Repetition -/

/-- The stream of no elements, as a result. -/
def noItems : Build W ParserId := pure (.stream .nil)

/-- A parser as often as it succeeds. -/
def many (p : ParserId) : Build W ParserId := do
  body ("\x7b " ++ (← p.name) ++ " \x7d") fun self => .many self p

/-- A parser at least once. -/
def oneplus (p : ParserId) : Build W ParserId := do
  let rest ← many p
  let q ← seq p rest .cons
  q.named (pairName (← p.name) ("\x7b " ++ (← p.name) ++ " \x7d"))

/-- A parser `n` times in front of another one. -/
def repeated (p : ParserId) : (n : Nat) → (last : ParserId) → Build W ParserId
  | 0, last => return last
  | n + 1, last => do repeated p n (← seq p last .cons)

/-- A parser exactly `n` times, and not at all if `n` is negative. -/
def times (n : Int) (p : ParserId) : Build W ParserId := do
  let q ← repeated p n.toNat (← noItems)
  q.named (toString n ++ " * " ++ (← p.name))

/-- A parser up to `n` times, and then another one. -/
def upTo (p : ParserId) : (n : Nat) → (last : ParserId) → Build W ParserId
  | 0, last => return last
  | n + 1, last => do upTo p n (← optional (← seq p last .cons) (.stream .nil))

/-- A parser at least `low` times and at most `high` times, if there is a limit. -/
def betweenTimes (low : Int) (high : Option Int) (p : ParserId) : Build W ParserId := do
  let extra ← match high with
    | none => many p
    | Option.some h => upTo p (h - low).toNat (← noItems)
  let limit := match high with
    | none => ""
    | Option.some h => toString h
  let name := toString low ++ ".." ++ limit ++ " * " ++ (← p.name)
  (← seq (← times low p) extra .append).named name

/-- A parser at least once, separated by another. -/
def sepBy1 (p separator : ParserId) : Build W ParserId := do
  let rest ← many (← seq separator p .second)
  (← seq p rest .cons).named ((← p.name) ++ " / " ++ (← separator.name))

/-- A parser any number of times, separated by another. -/
def sepBy (p separator : ParserId) : Build W ParserId := do
  optional (← sepBy1 p separator) (.stream .nil)

/-- Parsers one after another. -/
def sequence (ps : List ParserId) : Build W ParserId := do
  let q ← ps.foldrM (fun p q => seq p q .cons) (← noItems)
  q.named ("(" ++ String.intercalate ", " (← ps.mapM ParserId.name) ++ ")")

/-- The elements of a result, as a list: those of a stream, and also those of another container.
-/
def listOf : Value → Action W Value
  | .stream s => .toList s fun vs => .done (.list vs)
  | .dict entries => .done (.list (entries.map Prod.fst))
  | v =>
    match v.sequence? with
    | Option.some vs => .done (.list vs)
    | none => .raise .notAStream

/-- A parser whose resulting stream is read into a list. -/
def listed (p : ParserId) : Build W ParserId := do
  (← map p listOf).named (← p.name)

/-- A new parser defined as another. -/
def wrap (p : ParserId) : Build W ParserId := do
  let q ← ParserId.make {}
  q.define p
  return q

end Build

/-! ## Whole grammars -/

namespace Grammar

mutual

/-- Builds the parsers of a grammar, operands first. -/
def build : Grammar W → Build W ParserId
  | .ref p => return p
  | .some f => Build.some f
  | .token v => Build.token v
  | .pure v => Build.pure v
  | .fail m => Build.fail m
  | .finished => return .finished
  | .plus p q => do Build.plus (← p.build) (← q.build)
  | .or p q => do Build.or (← p.build) (← q.build)
  | .map p f => do Build.map (← p.build) f
  | .bind p f => do Build.bind (← p.build) f
  | .skip p => do Build.skip (← p.build)
  | .attempt p => do Build.attempt (← p.build)
  | .optional p v => do Build.optional (← p.build) v
  | .many p => do Build.many (← p.build)
  | .oneplus p => do Build.oneplus (← p.build)
  | .times n p => do Build.times n (← p.build)
  | .betweenTimes low high p => do Build.betweenTimes low high (← p.build)
  | .sepBy1 p q => do Build.sepBy1 (← p.build) (← q.build)
  | .sepBy p q => do Build.sepBy (← p.build) (← q.build)
  | .sequence ps => do Build.sequence (← buildAll ps)
  | .listed p => do Build.listed (← p.build)
  | .named p name => do (← p.build).named name
  | .wrap p => do Build.wrap (← p.build)
  | .forward => Build.forward
  | .undefined name => Build.undefined name
  | .native name f => Build.body name fun _ => .native f
  | .after name p f => do
    let q ← p.build
    Build.body name fun _ => .after q f
  | .cell v again => Build.body "" fun _ => .cell v again
termination_by structural g => g

/-- Builds the parsers of several grammars, from left to right. -/
def buildAll : List (Grammar W) → Build W (List ParserId)
  | [] => return []
  | g :: gs => do
    let p ← g.build
    return p :: (← buildAll gs)
termination_by structural gs => gs

end

end Grammar

end ResumableParsing
