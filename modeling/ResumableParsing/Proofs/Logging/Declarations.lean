import ResumableParsing.Proofs.Logging.Names
import ResumableParsing.Proofs.Logging.Transcripts

/-!
# Declared parsers

An orderly program in which every declared parser is defined never finds a definition missing, and
it does not matter whether a grammar that refers to a declared parser is built before or after that
is defined.

* `Program.bind`: one program after another
* `Exchange`: a definition and a grammar that is built before or after it
* `Exchange.Orderly.swapped`, `Exchange.Orderly.swapped_renamed`: the order does not matter
* `declared_parsers_are_as_defined`: nothing is missing, and nothing depends on the order
-/

namespace ResumableParsing

open Logging

variable {W α β : Type}

/-! ## Programs one after another -/

/-- One program, and then another one that depends on its result. -/
def Program.bind : Program W α → (α → Program W β) → Program W β
  | .done a, f => f a
  | .declare k, f => .declare fun p => (k p).bind f
  | .make g k, f => .make g fun p => (k p).bind f
  | .define p q next, f => .define p q (next.bind f)

theorem Program.build_bind (program : Program W α) (f : α → Program W β) :
    (program.bind f).build = program.build >>= fun a => (f a).build := by
  induction program with
  | done a => rfl
  | declare k ih => simp only [bind, build, ih, bind_assoc]
  | make g k ih => simp only [bind, build, ih, bind_assoc]
  | define p q next ih => simp only [bind, build, ih, bind_assoc]

theorem Program.Orderly.bind {M : Prop} {Q : (K F : ParserId → Prop) → α → Prop}
    {Q' : (K F : ParserId → Prop) → β → Prop} {K F : ParserId → Prop} {program : Program W α}
    {f : α → Program W β} (h : program.Orderly M Q K F)
    (hf : ∀ K F a, Q K F a → (f a).Orderly M Q' K F) : (program.bind f).Orderly M Q' K F := by
  induction h with
  | done hQ => exact hf _ _ _ hQ
  | declare _ ih => exact .declare ih
  | make hg own _ ih => exact .make hg own ih
  | refer hg stands known _ ih => exact .refer hg stands known ih
  | define declared known settled hF stay _ ih => exact .define declared known settled hF stay ih

/-! ## Definitions in front of a grammar or behind it -/

/-- A declared parser is defined for the last time, and a grammar is built before or after that. -/
structure Exchange (W α : Type) where
  /-- The parser. -/
  declared : ParserId
  /-- What it is defined as. -/
  source : ParserId
  /-- The grammar. -/
  grammar : Grammar W
  /-- What follows, given the parser of the grammar. -/
  next : ParserId → Program W α

namespace Exchange

/-- The grammar comes first. -/
def before (t : Exchange W α) : Program W α :=
  .make t.grammar fun p => .define t.declared t.source (t.next p)

/-- The definition comes first. -/
def after (t : Exchange W α) : Program W α := .define t.declared t.source (.make t.grammar t.next)

/-- What is still to be defined afterwards. -/
def Open (F : ParserId → Prop) (t : Exchange W α) (p : ParserId) : Prop := F p ∧ p ≠ t.declared

/-- The grammar takes over settled parsers only, so it does not take over the declared one. -/
structure Orderly (M : Prop) (K F : ParserId → Prop) (t : Exchange W α) : Prop where
  /-- The parser is declared. -/
  declared : F t.declared
  /-- What it is defined as is known. -/
  source : K t.source
  /-- It is settled. -/
  settled : ¬F t.source
  /-- So is what the grammar takes over. -/
  grammar : t.grammar.Orderly M K fun p => K p ∧ ¬F p
  /-- All parsers are defined in the end. -/
  made : t.grammar.standsFor = none → ∀ p, ¬K p →
    (t.next p).Orderly M Program.Closed (fun i => K i ∨ i = p) (t.Open F)
  /-- So they are where the grammar refers to a parser. -/
  referred : ∀ p, t.grammar.standsFor = some p → K p ∧
    (t.next p).Orderly M Program.Closed K (t.Open F)

/-- The declared parser has the name of what it is defined as, before the grammar is built and
afterwards. -/
def Named (t : Exchange W α) (σ : Store W) : Prop :=
  σ.parserName t.declared = σ.parserName t.source ∧
    (t.grammar.build σ).2.parserName t.declared = (t.grammar.build σ).2.parserName t.source

end Exchange

section

variable {M : Prop} {K F F' : ParserId → Prop} {σ τ : Store W} {p q : ParserId} {t : Exchange W α}

theorem Exchange.Orderly.before (h : t.Orderly M K F) : t.before.Orderly M Program.Closed K F := by
  cases stands : t.grammar.standsFor with
  | none =>
    refine .make h.grammar stands fun p hp => .define h.declared (.inl h.source) h.settled
      (fun _ h => h.1) (fun _ h ne => ⟨h, ne⟩) (h.made stands p hp)
  | some p =>
    obtain ⟨known, next⟩ := h.referred p stands
    exact .refer h.grammar stands known (.define h.declared h.source h.settled (fun _ h => h.1)
      (fun _ h ne => ⟨h, ne⟩) next)

/-- The name of a parser is in its cell. -/
theorem Store.parserName_eq (σ : Store W) (p : ParserId) : σ.parserName p = (p.cell σ).1.name := by
  change _ = (σ.parsers[p.index]?.getD {}).name
  unfold parserName
  cases σ.parsers[p.index]? <;> rfl

/-- Where no parser has a name, all have the same. -/
theorem Store.parserName_unnamed (σ : Store W) (p q : ParserId) :
    (σ.renamed fun _ => "").parserName p = (σ.renamed fun _ => "").parserName q := by
  have unnamed (p : ParserId) : (σ.renamed fun _ => "").parserName p = "" := by
    unfold parserName
    rw [getElem?_renamed]
    cases σ.parsers[p.index]? <;> rfl
  rw [unnamed, unnamed]

theorem modify_id (a : Array (Cell W)) (i : Nat) : a.modify i id = a := by
  apply Array.ext_getElem?
  intro j
  rw [Array.getElem?_modify]
  split <;> simp

/-- A parser that is still to be defined may be defined on the right. -/
theorem Logging.Stores.defineRight (h : Stores M K F σ τ) (declared : F p)
    (names : (p.cell σ).1.name = (q.cell τ).1.name) : Stores M K F σ (p.define q τ).2 := by
  have modified := h.modify (p := p) (G := F) (f := id)
    (g := fun d => { d.define τ.logging ((q.cell τ).1.code q) with name := (q.cell τ).1.name })
    (fun _ h => h) (fun _ h _ => h) (fun _ _ => rfl) (fun c logging => define_direct c logging _)
    (.inl declared) (.inl declared) fun c d a b hc hd _ _ => ⟨?name, ?ignored, .opened declared⟩
  case name => exact cell_of_some hc ▸ names
  case ignored => exact (h.cells p c d hc hd).ignored.trans (define_ignored ..).symm
  rw [modify_id] at modified
  exact modified

/-- It may be defined on the left where it is defined as something on the right that does the same.
-/
theorem Logging.Stores.defineLeft (h : Stores M K F σ τ) (declared : F p)
    (hF : ∀ i, F' i → F i) (stay : ∀ i, F i → i ≠ p → F' i)
    (names : (p.cell τ).1.name = (q.cell σ).1.name) {d : Code W}
    (inForce : (p.cell τ).1.inForce = some d)
    (codes : Codes M K F σ.parsers τ.parsers ((q.cell σ).1.code q) d) :
    Stores M K F' (p.define q σ).2 τ := by
  have modified := h.modify (p := p) (G := F') (g := id)
    (f := fun c => { c.define σ.logging ((q.cell σ).1.code q) with name := (q.cell σ).1.name })
    hF stay (fun c logging => define_direct c logging _) (fun _ _ => rfl) (.inl declared)
    (.inl declared) fun c e a b hc he ha hb => ⟨?name, ?ignored, ?inForce⟩
  case name => exact cell_of_some he ▸ names.symm
  case ignored => exact (define_ignored ..).trans (h.cells p c e hc he).ignored
  case inForce =>
    have left : (c.define σ.logging ((q.cell σ).1.code q)).inForce = _ :=
      inForce_define _ ((h.definable p declared).1 c hc)
    rw [cell_of_some he] at inForce
    exact left ▸ inForce ▸ .some (codes.mono (fun _ h => h) ha hb)
  rw [modify_id] at modified
  exact modified

/-! ### The order does not matter -/

/-- Building leaves the definitions of parsers as they are. -/
theorem cell_built (g : Grammar W) (hp : p.index < σ.parsers.size) :
    (p.cell (g.build σ).2).1.inForce = (p.cell σ).1.inForce ∧
      (p.cell (g.build σ).2).1.code p = (p.cell σ).1.code p := by
  have hc := Array.getElem?_eq_getElem hp
  obtain ⟨d, hd, direct, logged⟩ := (g.build_grows.grows σ).parsers _ _ hc
  rw [cell_of_some hc, cell_of_some hd]
  exact ⟨by simp only [Cell.inForce, direct, logged], by simp only [Cell.code, direct]⟩

/-- A parser that is defined for the first time while logging is on, or at any time while it is off,
goes by this definition. -/
theorem cell_defined (hp : p.index < τ.parsers.size) (bare : Logging.Definable τ p) :
    (p.cell (p.define q τ).2).1.inForce = some ((q.cell τ).1.code q) := by
  have hc := Array.getElem?_eq_getElem hp
  have found : (p.define q τ).2.parsers[p.index]? = some _ :=
    getElem?_modify_eq_some.mpr (by rw [if_pos rfl]; exact ⟨_, hc, rfl⟩)
  rw [cell_of_some found]
  exact inForce_define _ (bare _ hc)

theorem cell_elsewhere (h : p ≠ q) : (q.cell (p.define q τ).2).1 = (q.cell τ).1 := by
  have other : p.index ≠ q.index := fun same => h (congrArg ParserId.mk same)
  change ((τ.parsers.modify p.index _)[q.index]?).getD {} = (τ.parsers[q.index]?).getD {}
  rw [Array.getElem?_modify, if_neg other]

/-- A grammar is built before a declared parser is defined, or after that, where this has the name
of what it is defined as. Before the definition and what follows, the names may be others. -/
theorem Exchange.Orderly.swapping (h : t.Orderly M K F) (hs : Stores M K F σ τ)
    (named : σ.parserName t.declared = σ.parserName t.source) :
    Both t.grammar.build σ (t.declared.define t.source τ).2 fun p σ₁ τ₁ => Stores M K F σ₁ τ₁ ∧
      ∀ σ' τ', σ₁.SameButNames σ' → τ₁.SameButNames τ' → Stores M K F σ' τ' →
        σ'.parserName t.declared = σ'.parserName t.source →
        Both (t.next p).build (t.declared.define t.source σ').2 τ' fun _ σ'' τ'' =>
          ∃ K', Abreast M K' σ'' τ'' := by
  have settled := hs.settled _ ⟨h.source, h.settled⟩
  have other : t.declared ≠ t.source := fun same => h.settled (same ▸ h.declared)
  -- The right side is a definition ahead. What is still to be defined is not compared.
  have h₁ : Stores M K F σ (t.declared.define t.source τ).2 := by
    refine hs.defineRight h.declared ?_
    rw [(hs.cell t.source).1, ← σ.parserName_eq, ← σ.parserName_eq, named]
  have there {p : ParserId} (hp : p.index < σ.parsers.size) :
      p.index < (t.declared.define t.source τ).2.parsers.size :=
    h₁.size ▸ hp
  obtain ⟨same, h₂, more, gives⟩ := h.grammar.builds h₁.settled σ _ h₁ rfl
  refine ⟨same, h₂, fun σ' τ' left right hs' named' => ?_⟩
  -- Here the left side follows, and takes over what the right side has taken over before.
  have h₃ : Stores M K (t.Open F) (t.declared.define t.source σ').2 τ' := by
    refine hs'.defineLeft (d := (t.source.cell τ).1.code t.source) h.declared (fun _ h => h.1)
      (fun _ h ne => ⟨h, ne⟩) ?names ?inForce ?codes
    case names => rw [(hs'.cell t.declared).1, ← Store.parserName_eq, ← Store.parserName_eq, named']
    case inForce =>
      rw [← Cell.inForce_eq (right.cell t.declared),
        (cell_built t.grammar (there (hs.declared _ h.declared))).1]
      exact cell_defined (hs.size ▸ hs.declared _ h.declared) (hs.definable _ h.declared).2
    case codes =>
      have taken := (hs'.taken ((settled.later more).later (Nat.le_of_eq left.size.symm))).2
      rwa [← Cell.code_eq (right.cell t.source), (cell_built t.grammar (there settled.1)).2,
        cell_elsewhere other] at taken
  have next : Both (t.next (t.grammar.build σ).1).build (t.declared.define t.source σ').2 τ'
      fun _ σ'' τ'' => ∃ K' F', (∀ p, ¬F' p) ∧ Stores M K' F' σ'' τ'' := by
    cases stands : t.grammar.standsFor with
    | none =>
      have new := gives.new stands
      rw [← left.size] at new
      exact (h.made stands _ new.2).built
        (h₃.learning (Nat.lt_of_lt_of_eq new.1.1 (Array.size_modify ..).symm))
    | some p =>
      obtain rfl := gives.known p stands
      exact (h.referred _ stands).2.built h₃
  refine next.imp fun _ σ'' τ'' => ?_
  rintro ⟨K', F', closed, h₄⟩
  obtain rfl : F' = fun _ => False := funext fun p => eq_false (closed p)
  exact ⟨K', h₄⟩

theorem Exchange.before_build (t : Exchange W α) (σ : Store W) : t.before.build σ =
    (t.next (t.grammar.build σ).1).build
      (t.declared.define t.source (t.grammar.build σ).2).2 := rfl

/-- What follows the grammar is built in the end, given its parser. -/
theorem Exchange.after_build
    (h : (t.grammar.build (t.declared.define t.source τ).2).1 = p) : t.after.build τ =
      (t.next p).build (t.grammar.build (t.declared.define t.source τ).2).2 := by
  rw [← h]
  rfl

/-- The same is built in both orders where the declared parser has the name of what it is defined
as. -/
theorem Exchange.Orderly.swapped (h : t.Orderly M K F) (hs : Stores M K F σ τ) (named : t.Named σ) :
    (t.after.build τ).1 = (t.before.build σ).1 ∧
      ∃ K', Abreast M K' (t.before.build σ).2 (t.after.build τ).2 := by
  obtain ⟨same, h₁, next⟩ := h.swapping hs named.1
  rw [Exchange.after_build same]
  exact next _ _ (.refl _) (.refl _) h₁ named.2

/-- Otherwise it is the same but for names. -/
theorem Exchange.Orderly.swapped_renamed (h : t.Orderly M K F) (hs : Stores M K F σ τ)
    (names : ParserId → String) : (t.after.build τ).1 = (t.before.build σ).1 ∧
      ∃ K', Abreast M K' ((t.before.build σ).2.renamed names)
        ((t.after.build τ).2.renamed names) := by
  -- All names are dropped before the first step on either side, and again before the last one.
  let none : ParserId → String := fun _ => ""
  obtain ⟨same, h₁, next⟩ := h.swapping (hs.renamed none) (Store.parserName_unnamed ..)
  obtain ⟨made, left₁⟩ := t.grammar.build_ignoresNames _ _ (σ.sameButNames_renamed none)
  obtain ⟨-, left₂⟩ := Build.IgnoresNames.define t.declared t.source _ _
    (left₁.trans (Store.sameButNames_renamed _ none))
  obtain ⟨result, left⟩ := (t.next (t.grammar.build σ).1).build_ignoresNames _ _ left₂
  obtain ⟨-, right₁⟩ := Build.IgnoresNames.define t.declared t.source _ _
    (τ.sameButNames_renamed none)
  obtain ⟨made', right₂⟩ := t.grammar.build_ignoresNames _ _ right₁
  obtain ⟨result', right⟩ := (t.next (t.grammar.build σ).1).build_ignoresNames _ _
    (right₂.trans (Store.sameButNames_renamed _ none))
  obtain ⟨same', K', hs'⟩ := next _ _ (Store.sameButNames_renamed _ none)
    (Store.sameButNames_renamed _ none) (h₁.renamed none) (Store.parserName_unnamed ..)
  rw [← made] at same same' hs'
  rw [t.before_build, Exchange.after_build (made'.trans same)]
  refine ⟨result'.trans (same'.trans result.symm), K', ?_⟩
  rw [left.renamed_eq, right.renamed_eq]
  exact hs'.renamed names

end

/-! ## Orderly programs -/

/-- In an orderly program the definition and the grammar may change places. The names of parsers
depend on this, unless the declared parser has the name of what it is defined as. -/
theorem Program.Orderly.swapped {M : Prop} {start : Program W (Exchange W α)}
    (h : start.Orderly M (fun K F t => t.Orderly M K F) (· = .finished) fun _ => False) (world : W)
    (watch : Value → W → W) (logging logging' : Bool) :
    let before := (start.bind Exchange.before).made world watch logging
    let after := (start.bind Exchange.after).made world watch logging'
    after.1 = before.1 ∧
      ((start.made world watch logging).1.Named (start.made world watch logging).2 →
        ∃ K, Abreast M K before.2 after.2) ∧
      ∀ names, ∃ K, Abreast M K (before.2.renamed names) (after.2.renamed names) := by
  obtain ⟨same, K, F, orderly, hs⟩ := h.built (stores_initial M world watch logging logging')
  unfold Program.made
  simp only [Program.build_bind]
  change ((start.build _).1.after.build _).1 = ((start.build _).1.before.build _).1 ∧
    (_ → ∃ K, Abreast M K ((start.build _).1.before.build _).2
      ((start.build _).1.after.build _).2) ∧
    ∀ names, ∃ K, Abreast M K (((start.build _).1.before.build _).2.renamed names)
      (((start.build _).1.after.build _).2.renamed names)
  rw [same]
  exact ⟨(orderly.swapped_renamed hs fun _ => "").1, fun named => (orderly.swapped hs named).2,
    fun names => (orderly.swapped_renamed hs names).2⟩

/-- **Declared parsers are as they are defined.** If an orderly program defines all parsers that it
declares, then no operation finds a definition missing. If besides a grammar refers to a declared
parser, then it does not matter whether it is built before that is defined or afterwards: all
operations are answered in the same way. Where the declared parser has got another name before its
definition, the parsers that are built from it may have other names. This is all: once the parsers
have the same names, the answers are the same. -/
theorem declared_parsers_are_as_defined (world : W) (watch : Value → W → W) :
    (∀ program : Program W α,
      program.Orderly False Program.Closed (· = .finished) (fun _ => False) →
      ∀ logging flags entries σ,
        Transcript False (program.made world watch logging).2 flags entries σ →
        ∀ x ∈ entries, ∀ f, x.answer = .error (.raised f) → ¬f.Missing) ∧
    (∀ start : Program W (Exchange W α),
      start.Orderly False (fun K F t => t.Orderly False K F) (· = .finished) (fun _ => False) →
      ∀ logging logging',
        (start.made world watch logging).1.Named (start.made world watch logging).2 →
        let before := (start.bind Exchange.before).made world watch logging
        let after := (start.bind Exchange.after).made world watch logging'
        after.1 = before.1 ∧ before.2.EchoedBy False after.2 ∧
          after.2.EchoedBy False before.2) ∧
    (∀ start : Program W (Exchange W α),
      start.Orderly False (fun K F t => t.Orderly False K F) (· = .finished) (fun _ => False) →
      ∀ logging logging' names,
        let before := (start.bind Exchange.before).made world watch logging
        let after := (start.bind Exchange.after).made world watch logging'
        after.1 = before.1 ∧
          (before.2.renamed names).EchoedBy False (after.2.renamed names) ∧
          (after.2.renamed names).EchoedBy False (before.2.renamed names)) := by
  refine ⟨fun program orderly logging flags entries σ transcript x hx f raised missing => ?_,
    fun start orderly logging logging' named => ?_, fun start orderly logging logging' names => ?_⟩
  · obtain ⟨-, K, hs⟩ := orderly.abreast world watch logging logging
    exact hs.quiet transcript hx raised missing
  · obtain ⟨same, abreast, -⟩ := orderly.swapped world watch logging logging'
    obtain ⟨K, hs⟩ := abreast named
    exact ⟨same, hs.echoed, Stores.echoed hs.symm⟩
  · obtain ⟨same, -, abreast⟩ := orderly.swapped world watch logging logging'
    obtain ⟨K, hs⟩ := abreast names
    exact ⟨same, hs.echoed, Stores.echoed hs.symm⟩

/-- A parser that refers to itself by a declaration, and a grammar that refers to the declaration:
where that is built before the definition, the parse succeeds as it does where it is built
afterwards. If the declaration has another name, then so has the grammar, but the parse is the same.
-/
theorem declared_parsers_are_as_defined_recursion :
    let start (name : String) : Program Unit (Exchange Unit ParserId) :=
      .declare fun f => .make (.named (.ref f) name) fun _ =>
        .make (.named (.or (.plus (.token (.int 1)) (.ref f)) (.token (.int 2))) "items") fun q =>
          .done ⟨f, q, .plus (.ref f) (.token (.int 3)), .done⟩
    let before (name : String) := ((start name).bind Exchange.before).made () (fun _ w => w) false
    let after (name : String) := ((start name).bind Exchange.after).made () (fun _ w => w) false
    let input : Stream Value := .cons 0 (.int 1) (.cons 1 (.int 2) (.cons 2 (.int 3) .nil))
    (∃ entries σ τ, Transcript False (before "items").2 [false] entries σ ∧
      entries.map Entry.operation = [.parse (before "items").1 (.plain false input 0 .none)] ∧
      entries.all (fun x => x.answer.isOk) = true ∧
      (∀ x ∈ entries, ∀ f, x.answer = .error (.raised f) → ¬f.Missing) ∧
      (after "items").1 = (before "items").1 ∧
      Transcript False (after "items").2 [false] entries τ ∧ σ.SameButLog τ) ∧
    ∃ p entries σ τ, (before "rest").1 = p ∧ (after "rest").1 = p ∧
      (before "rest").2.parserName p = "(rest, 3)" ∧
      (after "rest").2.parserName p = "(items, 3)" ∧
      entries.map Entry.operation = [.parse p (.plain false input 0 .none)] ∧
      entries.all (fun x => x.answer.isOk) = true ∧
      Transcript False ((before "rest").2.renamed fun _ => "") [false] entries σ ∧
      Transcript False ((after "rest").2.renamed fun _ => "") [false] entries τ := by
  intro start before after input
  have orderly (name : String) :
      (start name).Orderly False (fun K F t => t.Orderly False K F) (· = .finished)
        fun _ => False := by
    refine .declare fun f hf => .refer (.named _ (.ref f)) rfl (.inr rfl) ?_
    refine .make (.named _ (.or (.plus (.token _) (.ref f)) (.token _))) rfl fun q hq => .done ?_
    exact {
      declared := .inr rfl
      source := .inr rfl
      settled := fun h => hq (.inr (h.elim False.elim id))
      grammar := .plus (.ref f) (.token _)
      made := fun _ p _ => .done fun i h => h.2 (h.1.elim False.elim id)
      referred := fun p h => by cases h }
  obtain ⟨quiet, swapped, renamed⟩ :=
    declared_parsers_are_as_defined (W := Unit) (α := ParserId) () fun _ w => w
  refine ⟨?same, ?others⟩
  case same =>
    have parsed : Transcript False (before "items").2 _ _ _ := Transcript.none.more false
      (o := .parse (before "items").1 (.plain false input 0 .none)) trivial
      (.of_succeeded 60 ((regular_parseState _ _).composed.map _) (by decide +kernel))
    obtain ⟨same, echoed, -⟩ := swapped (start "items") (orderly _) false false
      ⟨by decide +kernel, by decide +kernel⟩
    obtain ⟨⟨τ, transcript⟩, alike⟩ := echoed _ _ _ parsed [false] rfl
    exact ⟨_, _, τ, parsed, rfl, by decide +kernel,
      quiet _ ((orderly _).bind fun K F t h => h.before) false _ _ _ parsed, same, transcript,
      (alike _ _ transcript rfl).2⟩
  case others =>
    have parsed : Transcript False ((before "rest").2.renamed fun _ => "") _ _ _ :=
      Transcript.none.more false
        (o := .parse (before "rest").1 (.plain false input 0 .none)) trivial
        (.of_succeeded 60 ((regular_parseState _ _).composed.map _) (by decide +kernel))
    obtain ⟨same, echoed, -⟩ := renamed (start "rest") (orderly _) false false fun _ => ""
    obtain ⟨⟨τ, transcript⟩, -⟩ := echoed _ _ _ parsed [false] rfl
    exact ⟨_, _, _, τ, rfl, same, by decide +kernel, by decide +kernel, rfl, by decide +kernel,
      parsed, transcript⟩

/-- Where a declared parser is taken over before it is defined, and logging is off, the definition
is missing for good. If logging is on, it is looked up and found. -/
theorem declared_parsers_are_missing_where_taken_over :
    let program : Program Unit ParserId :=
      .declare fun f => .make (.skip (.ref f)) fun p => .make (.token (.int 1)) fun q =>
        .define f q (.done p)
    let parse (logging : Bool) : Except Stop (Output Unit) :=
      let made := program.made () (fun _ w => w) logging
      let input : Stream Value := .cons 0 (.int 1) .nil
      answer ((Operation.parse made.1 (.plain false input 0 .none)).perform.exec 20 made.2)
    parse false = .error (.raised .undefinedDeclaration) ∧
      parse true = .ok (.parsed (.ok (.ignored (.int 1)))) :=
  ⟨rfl, rfl⟩

end ResumableParsing
