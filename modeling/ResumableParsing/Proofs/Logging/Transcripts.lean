import ResumableParsing.Proofs.Logging.Sessions
import ResumableParsing.Proofs.Sessions.Calls

/-!
# Transcripts

Once grammars are built, a caller runs parsers, starts sessions, feeds and finishes them, builds
more parsers and runs programs of its own, in any order, and switches logging on and off in between.
A transcript lists what has been done and answered. If the grammars have been built by an orderly
program, then nothing but the log depends on whether logging has been on, neither while they were
built nor later.

* `Operation`, `Output`: what the library does, and what it gives
* `Transcript`: what has been done so far, and the store that this has led to
* `Store.SameButLog`: stores that are the same for a caller who does not read the log
* `Logging.Stores.follow`: the same operations, with other choices of logging
* `logging_changes_only_the_log`: orderly programs are built and run alike
-/

namespace ResumableParsing

variable {W α : Type}

/-! ## Operations -/

/-- What the library does for a caller. -/
inductive Operation (W : Type) where
  /-- Builds the parsers of one more grammar. -/
  | make (g : Grammar W)
  /-- Runs a parser from a state. -/
  | run (p : ParserId) (s : State Value)
  /-- Runs a parser from a state, and gives the parsed value. -/
  | parse (p : ParserId) (s : State Value)
  /-- Gives the stream of results of a parser from a state on. -/
  | runMany (p : ParserId) (s : State Value)
  /-- Starts a session. -/
  | start (p : ParserId) (s : State Value) (handlers : Handlers W)
  /-- Gives a chunk to a session, unless it is empty. -/
  | provide (source : Source) (i : SessionId)
  /-- Gives a chunk to a session. -/
  | force (source : Source) (i : SessionId)
  /-- Gives the result of a session at the end of the input. -/
  | finish (i : SessionId)
  /-- Runs a program of the caller. -/
  | act (a : Action W Value)

/-- What the library gives. -/
inductive Output (W : Type) where
  /-- A parser. -/
  | parser (p : ParserId)
  /-- The end of a parse, or a request for a chunk. -/
  | finish (f : Finish W)
  /-- A parsed value, or a request for a chunk. -/
  | parsed (x : Except (Request W) Value)
  /-- A session. -/
  | session (i : SessionId)
  /-- A value. -/
  | value (v : Value)

/-- The parsers that are there. -/
def Store.Holds (σ : Store W) (p : ParserId) : Prop := p.index < σ.parsers.size

namespace Operation

/-- The operation is carried out. -/
def perform : Operation W → Eval W (Output W)
  | .make g => .parser <$> Eval.ofBuild g.build
  | .run p s => .finish <$> p.run s
  | .parse p s => .parsed <$> p.parseState s
  | .runMany p s => .parsed <$> p.runMany s
  | .start p s handlers => .session <$> p.startSession s handlers
  | .provide source i => .session <$> i.provide source
  | .force source i => .session <$> i.forceProvide source
  | .finish i => .value <$> i.finish
  | .act a => .value <$> a.run

/-- Grammars are about parsers that are there. What the caller brings along claims no definition to
be missing, unless definitions may be missing. -/
def Fits (M : Prop) (σ : Store W) : Operation W → Prop
  | .make g => g.Orderly M σ.Holds σ.Holds
  | .start _ _ handlers => handlers.Truthful M
  | .act a => a.Truthful M
  | _ => True

end Operation

/-! ## Transcripts -/

/-- An operation that has been carried out. -/
structure Entry (W : Type) where
  /-- The operation. -/
  operation : Operation W
  /-- What it has given, or why it has broken off. -/
  answer : Except Stop (Output W)

/-- `Transcript M σ₀ flags entries σ`: the operations lead from the store `σ₀` to the store `σ`,
each of them with logging on or off. The latest comes first. -/
inductive Transcript (M : Prop) (σ₀ : Store W) : List Bool → List (Entry W) → Store W → Prop where
  /-- Nothing has been done. -/
  | none : Transcript M σ₀ [] [] σ₀
  /-- One more operation. -/
  | more {flags : List Bool} {entries : List (Entry W)} {σ : Store W} (logging : Bool)
      {o : Operation W} {r : EStateM.Result Stop (Store W) (Output W)} :
      Transcript M σ₀ flags entries σ → o.Fits M σ →
      o.perform.Comes { σ with logging := logging } r →
      Transcript M σ₀ (logging :: flags) (⟨o, answer r⟩ :: entries) (left r)

/-- The stores are the same, except for the log and for where definitions are kept. -/
structure Store.SameButLog (σ τ : Store W) : Prop where
  /-- Everything besides parsers is the same. -/
  rest : τ = { σ with logging := τ.logging, log := τ.log, parsers := τ.parsers }
  /-- Parsers have the same names, and are left out alike. -/
  parsers : τ.parsers.map (fun c => (c.name, c.ignored)) =
    σ.parsers.map fun c => (c.name, c.ignored)

/-- Whatever is done from the store `σ`, with logging on or off, can be done from the store `τ` with
any other choice of logging. However it is done, it is answered in the same way, and the stores stay
the same but for the log. -/
def Store.EchoedBy (M : Prop) (σ τ : Store W) : Prop :=
  ∀ flags entries σ', Transcript M σ flags entries σ' → ∀ flags', flags'.length = flags.length →
    (∃ τ', Transcript M τ flags' entries τ') ∧
    ∀ entries' τ', Transcript M τ flags' entries' τ' →
      entries'.map Entry.operation = entries.map Entry.operation →
      entries' = entries ∧ σ'.SameButLog τ'

/-- What is answered is determined by what is done. -/
theorem Transcript.unique {M : Prop} {σ₀ σ σ' : Store W} {flags : List Bool}
    {entries entries' : List (Entry W)} (transcript : Transcript M σ₀ flags entries σ)
    (transcript' : Transcript M σ₀ flags entries' σ')
    (same : entries'.map Entry.operation = entries.map Entry.operation) :
    entries' = entries ∧ σ' = σ := by
  induction transcript generalizing entries' σ' with
  | none =>
    cases transcript'
    exact ⟨rfl, rfl⟩
  | more logging _ _ comes ih =>
    cases transcript' with
    | more _ transcript' _ comes' =>
      obtain ⟨operation, rest⟩ := List.cons.inj same
      obtain ⟨rfl, rfl⟩ := ih transcript' rest
      subst operation
      obtain rfl := comes.unique comes'
      exact ⟨rfl, rfl⟩

namespace Logging

variable {M : Prop} {K F : ParserId → Prop} {σ τ σ₀ τ₀ : Store W} {flags flags' : List Bool}
  {entries : List (Entry W)}

theorem Stores.sameButLog (h : Stores M K F σ τ) : σ.SameButLog τ where
  rest := h.rest
  parsers := by
    apply Array.ext_getElem?
    intro i
    rw [Array.getElem?_map, Array.getElem?_map]
    cases hc : σ.parsers[i]? with
    | none => rw [h.dangling (p := ⟨i⟩) hc]
    | some c =>
      obtain ⟨c', d, hc', hd, same⟩ := h.parser (p := ⟨i⟩) (Array.getElem?_eq_some_iff.mp hc).1
      obtain rfl : c = c' := Option.some.inj (hc.symm.trans hc')
      rw [hd, Option.map_some, Option.map_some, same.name, same.ignored]

/-- The stores before anything is built differ in nothing but the flag. -/
theorem stores_initial (M : Prop) (world : W) (watch : Value → W → W) (logging logging' : Bool) :
    Stores M (· = .finished) (fun _ => False) { Store.initial world watch with logging := logging }
      { Store.initial world watch with logging := logging' } where
  rest := rfl
  size := rfl
  cells p c d hc hd := by
    have only : p.index < 1 := (Array.getElem?_eq_some_iff.mp hc).1
    obtain rfl : p = .finished := congrArg ParserId.mk (Nat.lt_one_iff.mp only)
    obtain rfl := Option.some.inj hc
    obtain rfl := Option.some.inj hd
    exact ⟨rfl, rfl, .some (.body trivial)⟩
  known := by
    rintro p rfl
    exact Nat.one_pos
  declared := fun _ h => h.elim
  definable := fun _ h => h.elim
  truthful := by
    constructor <;> intro i x hx <;> cases hx

/-! ## The same operations -/

/-- Logging is switched on or off on both sides. -/
theorem Stores.switch (h : Abreast M K σ τ) (logging logging' : Bool) :
    Abreast M K { σ with logging := logging } { τ with logging := logging' } where
  rest := by rw [h.rest]
  size := h.size
  cells := h.cells
  known := h.known
  declared := h.declared
  definable := fun _ h => h.elim
  truthful := { h.truthful with }

/-- All parsers that are there may be known. -/
theorem Stores.knowAll (h : Abreast M K σ τ) : Abreast M σ.Holds σ τ :=
  h.knowing h.known fun _ hp => hp

theorem Stores.fits (h : Stores M K F σ τ) {o : Operation W} (fits : o.Fits M σ) : o.Fits M τ := by
  have holds : τ.Holds = σ.Holds := funext fun p => by simp only [Store.Holds, h.size]
  cases o with
  | make g =>
    unfold Operation.Fits
    rw [holds]
    exact fits
  | _ => exact fits

/-- An operation takes no notice of logging. -/
theorem indifferent_operation {n : Nat} {o : Operation W} (fits : o.Fits M σ) :
    Indifferent M σ.Holds n o.perform fun _ => True := by
  have forces := forces (W := W) (M := M) (K := σ.Holds) n
  have given {β : Type} {x : Eval W β} {R : β → Prop} {f : β → Output W}
      (h : Indifferent M σ.Holds n x R) : Indifferent M σ.Holds n (f <$> x) fun _ => True :=
    indifferent_map h fun _ _ => trivial
  cases o with
  | make g => exact given (indifferent_build fits)
  | run p s => exact given (indifferent_run forces p s)
  | parse p s => exact given (indifferent_parseState forces p s)
  | runMany p s => exact given (indifferent_runMany forces p s)
  | start p s handlers => exact given (indifferent_startSession forces p s fits)
  | provide source i => exact given (indifferent_provide forces source i)
  | force source i => exact given (indifferent_forceProvide forces source i)
  | finish i => exact given (indifferent_finish forces i)
  | act a => exact given (indifferent_action forces fits)

theorem Stores.performed {r : EStateM.Result Stop (Store W) (Output W)} {o : Operation W}
    (h : Abreast M K σ τ) (fits : o.Fits M σ) (hr : o.perform.Comes σ r) :
    ∃ r', o.perform.Comes τ r' ∧ Ends M σ.Holds (fun _ => True) r r' := by
  obtain ⟨he, n, run⟩ := hr
  have run := run n (Nat.le_refl n)
  obtain ⟨r', hr', ends⟩ := indifferent_operation fits σ τ h.knowAll (run ▸ he)
  exact ⟨r', hr', run ▸ ends⟩

/-- What has been done with logging on or off can be done with other choices, and is answered in the
same way. No definition is found missing, unless definitions may be missing. -/
theorem Stores.follow (h : Abreast M K σ₀ τ₀) (transcript : Transcript M σ₀ flags entries σ)
    (size : flags'.length = flags.length) :
    (∃ τ K', Transcript M τ₀ flags' entries τ ∧ Abreast M K' σ τ) ∧
      ∀ x ∈ entries, ∀ f, x.answer = .error (.raised f) → f.Missing → M := by
  induction transcript generalizing flags' with
  | none =>
    obtain rfl := List.length_eq_zero_iff.mp size
    exact ⟨⟨τ₀, K, .none, h⟩, List.forall_mem_nil _⟩
  | more logging _ fits comes ih =>
    obtain ⟨logging', flags', rfl⟩ := List.exists_cons_of_length_eq_add_one size
    obtain ⟨⟨τ, K', transcript, hs⟩, quiet⟩ := ih (Nat.succ.inj size)
    obtain ⟨r', comes', ends⟩ := (hs.switch logging logging').performed fits comes
    have more := transcript.more logging' (hs.fits fits) comes'
    -- Only a fault can tell that a definition is missing.
    cases ends with
    | ok _ hs' =>
      refine ⟨⟨_, _, more, hs'⟩, List.forall_mem_cons.mpr ⟨?_, quiet⟩⟩
      intro f e
      cases e
    | raised hf hs' =>
      refine ⟨⟨_, _, more, hs'⟩, List.forall_mem_cons.mpr ⟨?_, quiet⟩⟩
      intro f e
      cases e
      exact hf
    | dangling hs' =>
      refine ⟨⟨_, _, more, hs'⟩, List.forall_mem_cons.mpr ⟨?_, quiet⟩⟩
      intro f e
      cases e

/-- A caller cannot tell the stores apart. -/
theorem Stores.echoed (h : Abreast M K σ τ) : σ.EchoedBy M τ := by
  intro flags entries σ' transcript flags' size
  obtain ⟨⟨τ', K', transcript', hs'⟩, -⟩ := h.follow transcript size
  refine ⟨⟨τ', transcript'⟩, fun entries'' τ'' transcript'' same => ?_⟩
  obtain ⟨rfl, rfl⟩ := transcript'.unique transcript'' same
  exact ⟨rfl, hs'.sameButLog⟩

/-- What is missing is missing by permission. -/
theorem Stores.quiet (h : Abreast M K σ₀ τ₀) (transcript : Transcript M σ₀ flags entries σ)
    {x : Entry W} (hx : x ∈ entries) {f : Fault} (raised : x.answer = .error (.raised f))
    (missing : f.Missing) : M :=
  (h.follow transcript rfl).2 x hx f raised missing

end Logging

/-! ## Orderly programs -/

/-- The program is carried out before anything else, with logging on or off. -/
def Program.made (program : Program W α) (world : W) (watch : Value → W → W) (logging : Bool) :
    α × Store W :=
  program.build { Store.initial world watch with logging := logging }

/-- No parser is still to be defined. -/
def Program.Closed (_ F : ParserId → Prop) (_ : α) : Prop := ∀ p, ¬F p

/-- The stores after an orderly program differ in logging. -/
theorem Program.Orderly.abreast {M : Prop} {program : Program W α}
    (h : program.Orderly M Program.Closed (· = .finished) fun _ => False) (world : W)
    (watch : Value → W → W) (logging logging' : Bool) :
    (program.made world watch logging').1 = (program.made world watch logging).1 ∧
      ∃ K, Logging.Abreast M K (program.made world watch logging).2
        (program.made world watch logging').2 := by
  obtain ⟨same, K, F, closed, hs⟩ :=
    h.built (Logging.stores_initial M world watch logging logging')
  obtain rfl : F = fun _ => False := funext fun p => eq_false (closed p)
  exact ⟨same, K, hs⟩

/-- **Logging changes only the log.** An orderly program takes over what a declared parser does only
after its definition. Whether logging is on while it is carried out, and in each operation later,
the same parsers are built, and the operations are answered in the same way: with the same values,
errors and states, with the same elements taken from iterators, and with the same changes of the
world by the functions of the caller. -/
theorem logging_changes_only_the_log {program : Program W α}
    (orderly : program.Orderly True Program.Closed (· = .finished) fun _ => False) (world : W)
    (watch : Value → W → W) (logging logging' : Bool) :
    (program.made world watch logging').1 = (program.made world watch logging).1 ∧
      (program.made world watch logging).2.EchoedBy True (program.made world watch logging').2 := by
  obtain ⟨same, K, hs⟩ := orderly.abreast world watch logging logging'
  exact ⟨same, hs.echoed⟩

/-- An operation that succeeds within some bound comes to its end. -/
theorem Eval.Comes.of_succeeded {x : Eval W α} {σ : Store W} (n : Nat) (h : Composed x)
    (done : succeeded (x.exec n σ) = true) : x.Comes σ (x.exec n σ) := by
  obtain ⟨a, τ, run⟩ := exists_of_succeeded done
  exact h.comes rfl (run ▸ not_exhausted_ok)

/-- A parser that refers to itself, and one that leaves its result out, taken over after the
definition: two chunks are parsed while logging is on now and then, and the same has been answered
all the time if logging has been on from the beginning. -/
theorem logging_changes_only_the_log_recursion :
    let program : Program Unit ParserId :=
      .declare fun f => .make (.or (.plus (.token (.int 1)) (.ref f)) (.token (.int 2))) fun q =>
        .define f q (.make (.plus (.skip (.ref f)) (.token (.int 3))) fun p => .done p)
    let made := program.made () fun _ w => w
    let chunk (v w : Int) : Stream Value := .cons 0 (.int v) (.cons 1 (.int w) .nil)
    let start : Operation Unit :=
      .start (made false).1 (.plain false (chunk 1 1) 0 .none) .value
    program.Orderly True Program.Closed (· = .finished) (fun _ => False) ∧
    ∃ entries σ τ, Transcript True (made false).2 [true, false, true] entries σ ∧
      entries.map Entry.operation = [.finish ⟨2⟩, .provide (.stream (chunk 2 3)) ⟨1⟩, start] ∧
      entries.all (fun x => x.answer.isOk) = true ∧
      Transcript True (made true).2 [true, true, true] entries τ ∧ σ.SameButLog τ := by
  intro program made chunk start
  have orderly : program.Orderly True Program.Closed (· = .finished) fun _ => False := by
    refine .declare fun f hf => ?_
    refine .make (.or (.plus (.token _) (.ref f)) (.token _)) rfl fun q hq => ?_
    refine .define (G := fun _ => False) (.inr rfl) (.inr rfl) ?settled (fun _ h => h.elim) ?last
      (.make (.plus (.skip (.ref f) ?taken) (.token _)) rfl fun p _ => .done fun _ => id)
    case settled => exact fun h => hq (.inr (h.elim False.elim id))
    case last => exact fun i h other => h.elim id other
    case taken =>
      -- By now the declared parser is defined.
      intro i hi
      cases hi
      exact ⟨.inl (.inr rfl), id⟩
  have truthful {β : Type} (a : Action Unit β) : a.Truthful True := a.truthful_of trivial
  have started : Transcript True (made false).2 _ _ _ := Transcript.none.more true (o := start)
    (fun _ => truthful _)
    (.of_succeeded 60 ((composed_startSession _ _ _).map _) (by decide +kernel))
  have provided := started.more false (o := .provide (.stream (chunk 2 3)) ⟨1⟩) trivial
    (.of_succeeded 60 ((composed_provide _ _).map _) (by decide +kernel))
  have finished := provided.more true (o := .finish ⟨2⟩) trivial
    (.of_succeeded 60 ((composed_finish _).map _) (by decide +kernel))
  obtain ⟨same, echoed⟩ := logging_changes_only_the_log orderly () (fun _ w => w) false true
  obtain ⟨⟨τ, transcript⟩, alike⟩ := echoed _ _ _ finished [true, true, true] rfl
  exact ⟨orderly, _, _, τ, finished, rfl, by decide +kernel, transcript,
    (alike _ _ transcript rfl).2⟩

end ResumableParsing
