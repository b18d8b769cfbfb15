import ResumableParsing.Proofs.Grammar.Library

/-!
# Programs that build grammars

A caller builds grammars, declares parsers that grammars refer to, and defines them later. A parser
that is marked to be left out, a copy and a definition take over the run function that another
parser has at that moment. A program is orderly if they never take over what a declared parser does
before its last definition.

* `Action.Truthful`: functions of the caller that claim no definition to be missing
* `Grammar.Orderly`: grammars that take over the run functions of settled parsers only
* `Program`, `Program.build`: what a caller does to build grammars
* `Program.Orderly`: the programs that define parsers before they are taken over
-/

namespace ResumableParsing

variable {W α : Type}

/-! ## Missing definitions -/

/-- The fault says that the definition of a parser is missing. -/
def Fault.Missing : Fault → Prop
  | .undefinedParser => True
  | .undefinedDeclaration => True
  | _ => False

/-- The iterator does not claim that a definition is missing, unless definitions may be missing. -/
def Pull.Truthful (M : Prop) : Pull → Prop
  | .failed f => f.Missing → M
  | _ => True

/-- The program does not claim that a definition is missing, unless definitions may be missing. -/
def Action.Truthful (M : Prop) : Action W α → Prop
  | .done _ => True
  | .raise f => f.Missing → M
  | .inspect k => ∀ w, (k w).Truthful M
  | .update _ next => next.Truthful M
  | .serial k => ∀ n, (k n).Truthful M
  | .iterator answer k => (∀ n w, (answer n w).1.Truthful M) ∧ ∀ it, (k it).Truthful M
  | .asStream _ k => ∀ s, (k s).Truthful M
  | .isEmpty _ k => ∀ b, (k b).Truthful M
  | .first _ k => ∀ v, (k v).Truthful M
  | .rest _ k => ∀ s, (k s).Truthful M
  | .append _ _ k => ∀ s, (k s).Truthful M
  | .toList _ k => ∀ vs, (k vs).Truthful M
  | .setInput _ _ k => ∀ s, (k s).Truthful M
  | .setPosition _ _ k => ∀ s, (k s).Truthful M
  | .setUser _ _ k => ∀ s, (k s).Truthful M
  | .render _ k => ∀ t, (k t).Truthful M
  | .peek _ k => ∀ b t, (k b t).Truthful M
  | .result _ k => ∀ v, (k v).Truthful M
  | .finish _ k => ∀ v, (k v).Truthful M

theorem Pull.truthful_of {M : Prop} (h : M) (p : Pull) : p.Truthful M := by
  cases p with
  | failed f => exact fun _ => h
  | _ => trivial

/-- Where definitions may be missing, there is nothing that a program must not claim. -/
theorem Action.truthful_of {M : Prop} (h : M) (a : Action W α) : a.Truthful M := by
  induction a with
  | done a => trivial
  | raise f => exact fun _ => h
  | update f next ih => exact ih
  | iterator answer k ih => exact ⟨fun n w => Pull.truthful_of h _, ih⟩
  | _ => assumption

/-! ## Orderly grammars -/

/-- The parser that a grammar merely refers to. All other grammars build a parser of their own. -/
def Grammar.standsFor : Grammar W → Option ParserId
  | .ref p => Option.some p
  | .finished => Option.some .finished
  | .named g _ => g.standsFor
  | _ => Option.none

/-- Grammars that take over the run functions of parsers of the set `S` only, and of parsers of
their own. What binders give may take over those of the set `K`: by the time it is built, all
parsers are defined. No definition is missing, unless `M` holds. -/
inductive Grammar.Orderly (M : Prop) (K : ParserId → Prop) :
    (S : ParserId → Prop) → Grammar W → Prop where
  | ref {S : ParserId → Prop} (p : ParserId) : Orderly M K S (.ref p)
  | some {S : ParserId → Prop} {f : Value → Action W Bool} :
      (∀ v, (f v).Truthful M) → Orderly M K S (.some f)
  | token {S : ParserId → Prop} (v : Value) : Orderly M K S (.token v)
  | pure {S : ParserId → Prop} (v : Value) : Orderly M K S (.pure v)
  | fail {S : ParserId → Prop} (message : String) : Orderly M K S (.fail message)
  | finished {S : ParserId → Prop} : Orderly M K S .finished
  | plus {S : ParserId → Prop} {p q : Grammar W} :
      Orderly M K S p → Orderly M K S q → Orderly M K S (.plus p q)
  | or {S : ParserId → Prop} {p q : Grammar W} :
      Orderly M K S p → Orderly M K S q → Orderly M K S (.or p q)
  | map {S : ParserId → Prop} {p : Grammar W} {f : Value → Action W Value} :
      Orderly M K S p → (∀ v, (f v).Truthful M) → Orderly M K S (.map p f)
  | bind {S : ParserId → Prop} {p : Grammar W} {f : Value → Action W (Grammar W)} :
      Orderly M K S p → (∀ v, (f v).Truthful M) → (∀ v, (f v).Yields (Orderly M K K)) →
      Orderly M K S (.bind p f)
  | skip {S : ParserId → Prop} {p : Grammar W} :
      Orderly M K S p → (∀ i, p.standsFor = Option.some i → S i) → Orderly M K S (.skip p)
  | attempt {S : ParserId → Prop} {p : Grammar W} : Orderly M K S p → Orderly M K S (.attempt p)
  | optional {S : ParserId → Prop} {p : Grammar W} (v : Value) :
      Orderly M K S p → Orderly M K S (.optional p v)
  | many {S : ParserId → Prop} {p : Grammar W} : Orderly M K S p → Orderly M K S (.many p)
  | oneplus {S : ParserId → Prop} {p : Grammar W} : Orderly M K S p → Orderly M K S (.oneplus p)
  | times {S : ParserId → Prop} {p : Grammar W} (n : Int) :
      Orderly M K S p → Orderly M K S (.times n p)
  | betweenTimes {S : ParserId → Prop} {p : Grammar W} (low : Int) (high : Option Int) :
      Orderly M K S p → Orderly M K S (.betweenTimes low high p)
  | sepBy1 {S : ParserId → Prop} {p q : Grammar W} :
      Orderly M K S p → Orderly M K S q → Orderly M K S (.sepBy1 p q)
  | sepBy {S : ParserId → Prop} {p q : Grammar W} :
      Orderly M K S p → Orderly M K S q → Orderly M K S (.sepBy p q)
  | sequence {S : ParserId → Prop} {ps : List (Grammar W)} :
      (∀ p ∈ ps, Orderly M K S p) → Orderly M K S (.sequence ps)
  | listed {S : ParserId → Prop} {p : Grammar W} : Orderly M K S p → Orderly M K S (.listed p)
  | named {S : ParserId → Prop} {p : Grammar W} (name : String) :
      Orderly M K S p → Orderly M K S (.named p name)
  | wrap {S : ParserId → Prop} {p : Grammar W} :
      Orderly M K S p → (∀ i, p.standsFor = Option.some i → S i) → Orderly M K S (.wrap p)
  | forward {S : ParserId → Prop} : M → Orderly M K S .forward
  | undefined {S : ParserId → Prop} (name : String) : M → Orderly M K S (.undefined name)
  | native {S : ParserId → Prop} (name : String) {run : Native W} :
      (∀ s, (run s).Truthful M) → Orderly M K S (.native name run)
  | after {S : ParserId → Prop} {p : Grammar W} (name : String)
      {run : State Value → Reply Value → Action W (Reply Value)} :
      Orderly M K S p → (∀ s r, (run s r).Truthful M) → Orderly M K S (.after name p run)
  | cell {S : ParserId → Prop} (v : Value) (again : ParserId) : Orderly M K S (.cell v again)

theorem Grammar.Orderly.mono {M : Prop} {K K' S S' : ParserId → Prop} {g : Grammar W}
    (hK : ∀ p, K p → K' p) (hS : ∀ p, S p → S' p) (h : g.Orderly M K S) : g.Orderly M K' S' := by
  induction h generalizing S' with
  | ref p => exact .ref p
  | some h => exact .some h
  | token v => exact .token v
  | pure v => exact .pure v
  | fail m => exact .fail m
  | finished => exact .finished
  | plus _ _ ihp ihq => exact .plus (ihp hS) (ihq hS)
  | or _ _ ihp ihq => exact .or (ihp hS) (ihq hS)
  | map _ h ih => exact .map (ih hS) h
  | bind _ h _ ih ihf => exact .bind (ih hS) h fun v m σ g σ' run => ihf v m σ g σ' run hK
  | skip _ h ih => exact .skip (ih hS) fun i hi => hS i (h i hi)
  | attempt _ ih => exact .attempt (ih hS)
  | optional v _ ih => exact .optional v (ih hS)
  | many _ ih => exact .many (ih hS)
  | oneplus _ ih => exact .oneplus (ih hS)
  | times n _ ih => exact .times n (ih hS)
  | betweenTimes low high _ ih => exact .betweenTimes low high (ih hS)
  | sepBy1 _ _ ihp ihq => exact .sepBy1 (ihp hS) (ihq hS)
  | sepBy _ _ ihp ihq => exact .sepBy (ihp hS) (ihq hS)
  | sequence _ ih => exact .sequence fun p hp => ih p hp hS
  | listed _ ih => exact .listed (ih hS)
  | named name _ ih => exact .named name (ih hS)
  | wrap _ h ih => exact .wrap (ih hS) fun i hi => hS i (h i hi)
  | forward h => exact .forward h
  | undefined name h => exact .undefined name h
  | native name h => exact .native name h
  | after name _ h ih => exact .after name (ih hS) h
  | cell v again => exact .cell v again

/-! ## Programs -/

/-- What a caller does to build grammars. -/
inductive Program (W α : Type) where
  /-- Everything is built. -/
  | done (a : α)
  /-- Declares a parser that is to be defined later. -/
  | declare (k : ParserId → Program W α)
  /-- Builds the parsers of a grammar. -/
  | make (g : Grammar W) (k : ParserId → Program W α)
  /-- Defines a declared parser as another one. -/
  | define (p q : ParserId) (next : Program W α)

namespace Program

/-- The program is carried out. -/
def build : Program W α → Build W α
  | done a => return a
  | declare k => do (k (← Build.forward)).build
  | make g k => do (k (← g.build)).build
  | define p q next => do
    p.define q
    next.build

/-- `program.Orderly M Q K F`: the program takes over the run function of a declared parser only
after its last definition. `K` are the parsers that are known before the program, and `F` are those
among them that are still to be defined, or to be defined again. At the end `Q` holds of both sets
and of the result. -/
inductive Orderly (M : Prop) (Q : (K F : ParserId → Prop) → α → Prop) :
    (K F : ParserId → Prop) → Program W α → Prop where
  | done {K F : ParserId → Prop} {a : α} : Q K F a → Orderly M Q K F (.done a)
  | declare {K F : ParserId → Prop} {k : ParserId → Program W α} :
      (∀ p, ¬K p → Orderly M Q (fun i => K i ∨ i = p) (fun i => F i ∨ i = p) (k p)) →
      Orderly M Q K F (.declare k)
  /-- The grammar builds a parser of its own. -/
  | make {K F : ParserId → Prop} {g : Grammar W} {k : ParserId → Program W α} :
      g.Orderly M K (fun i => K i ∧ ¬F i) → g.standsFor = none →
      (∀ p, ¬K p → Orderly M Q (fun i => K i ∨ i = p) F (k p)) → Orderly M Q K F (.make g k)
  /-- The grammar refers to a parser that is known, and may rename it. -/
  | refer {K F : ParserId → Prop} {g : Grammar W} {k : ParserId → Program W α} {p : ParserId} :
      g.Orderly M K (fun i => K i ∧ ¬F i) → g.standsFor = some p → K p →
      Orderly M Q K F (k p) → Orderly M Q K F (.make g k)
  /-- The definition may be the last one of the parser or not. -/
  | define {K F G : ParserId → Prop} {p q : ParserId} {next : Program W α} :
      F p → K q → ¬F q → (∀ i, G i → F i) → (∀ i, F i → i ≠ p → G i) →
      Orderly M Q K G next → Orderly M Q K F (.define p q next)

end Program

end ResumableParsing
