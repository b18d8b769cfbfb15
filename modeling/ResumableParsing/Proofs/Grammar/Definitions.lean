import ResumableParsing.Proofs.Direct.Replies

/-!
# Definitions of a parser

A parser may be defined any number of times, each time while logging is on or off. A definition that
is made while logging is off becomes the run function itself, one that is made while it is on goes
behind the logging method; the run function comes first, and neither kind takes the other one away.

* `Definition.inForce`: the definition that a parser goes by
* `ParserId.Defined`: the definitions that have been made of a parser
* `ParserId.Keeps`: what the cell of a parser keeps of them
* `definitions_in_force_run`: which definition is run, and when it is the latest one
-/

namespace ResumableParsing

variable {W : Type}

/-! ## Definitions -/

/-- A definition that has been made of a parser. -/
structure Definition (W : Type) where
  /-- Logging was on. -/
  logging : Bool
  /-- The run function that was given. -/
  code : Code W

namespace Definition

/-- The latest definition that was made while logging was off, of all definitions, the latest
first. -/
def direct? (ds : List (Definition W)) : Option (Definition W) := ds.find? fun d => !d.logging

/-- The latest definition that was made while logging was on. -/
def logged? (ds : List (Definition W)) : Option (Definition W) := ds.find? fun d => d.logging

/-- The definition that a parser goes by: the latest one that was made while logging was off, or
where there is none, the latest of all. -/
def inForce (ds : List (Definition W)) : Option (Definition W) := (direct? ds).or ds.head?

variable {d e : Definition W} {ds : List (Definition W)}

@[simp] theorem direct?_nil : direct? ([] : List (Definition W)) = none := rfl

@[simp] theorem logged?_nil : logged? ([] : List (Definition W)) = none := rfl

theorem direct?_cons : direct? (d :: ds) = if d.logging then direct? ds else some d := by
  cases h : d.logging <;> simp [direct?, h]

theorem logged?_cons : logged? (d :: ds) = if d.logging then some d else logged? ds := by
  cases h : d.logging <;> simp [logged?, h]

/-- Where no definition was made while logging was off, the latest of all was made while it was
on. -/
theorem inForce_eq_or : inForce ds = (direct? ds).or (logged? ds) := by
  cases ds with
  | nil => rfl
  | cons d ds => cases h : d.logging <;> simp [inForce, direct?_cons, logged?_cons, h]

/-- The latest definition is in force if it was made while logging was off, or if all others were
made while it was on. -/
theorem inForce_latest (h : d.logging = false ∨ ∀ e ∈ ds, e.logging = true) :
    inForce (d :: ds) = some d := by
  unfold inForce
  rw [direct?_cons]
  rcases h with off | on
  · simp [off]
  · have none : direct? ds = none := by
      apply List.find?_eq_none.mpr
      intro e he
      simp [on e he]
    cases d.logging <;> simp [none]

/-- A definition that was made while logging was on is hidden by an earlier one that was made while
it was off. -/
theorem inForce_hidden (on : d.logging = true) (he : e ∈ ds) (off : e.logging = false) :
    ∃ e' ∈ ds, e'.logging = false ∧ inForce (d :: ds) = some e' := by
  have found : (direct? ds).isSome := by
    apply List.find?_isSome.mpr
    exact ⟨e, he, by simp [off]⟩
  obtain ⟨e', first⟩ := Option.isSome_iff_exists.mp found
  have off' : e'.logging = false := by simpa using List.find?_some first
  refine ⟨e', List.mem_of_find?_eq_some first, off', ?_⟩
  simp [inForce, direct?_cons, on, first]

end Definition

/-! ## The cell of a parser -/

/-- The cell of the parser keeps the latest definition of either kind. -/
def ParserId.Keeps (p : ParserId) (σ : Store W) (ds : List (Definition W)) : Prop :=
  ∃ c, σ.parsers[p.index]? = some c ∧ c.direct = (Definition.direct? ds).map Definition.code ∧
    c.logged = (Definition.logged? ds).map Definition.code

/-- The definitions that have been made of a parser, the latest first. Between them anything may
happen that leaves the parser as it is: other parsers are built, renamed or defined, sessions and
parses are run, and logging is switched on or off. -/
inductive ParserId.Defined (p : ParserId) : Store W → List (Definition W) → Prop where
  /-- The parser is new and has not been defined. -/
  | bare (σ : Store W) (name : String) :
      p = (Build.undefined name σ).1 → Defined p (Build.undefined name σ).2 []
  /-- The parser is new; making it is its first definition. -/
  | made (σ : Store W) (name : String) (b : ParserId → Body W) :
      p = (Build.body name b σ).1 → Defined p (Build.body name b σ).2 [⟨σ.logging, .body (b p)⟩]
  /-- The parser is defined, and may be renamed at that. -/
  | define {σ : Store W} {ds : List (Definition W)} (code : Code W) (rename : String → String) :
      Defined p σ ds →
      Defined p (p.alter (fun c => { c.define σ.logging code with name := rename c.name }) σ).2
        (⟨σ.logging, code⟩ :: ds)
  /-- Logging is switched on or off. -/
  | switch {σ : Store W} {ds : List (Definition W)} (on : Bool) :
      Defined p σ ds → Defined p { σ with logging := on } ds
  /-- Another parser is defined or renamed. -/
  | elsewhere {σ : Store W} {ds : List (Definition W)} (q : ParserId) (f : Cell W → Cell W) :
      q ≠ p → Defined p σ ds → Defined p (q.alter f σ).2 ds
  /-- Something is computed or built. -/
  | other {σ : Store W} {ds : List (Definition W)} {α : Type} {x : Eval W α}
      {y : EStateM.Result Stop (Store W) α} :
      Composed x → x.Comes σ y → Defined p σ ds → Defined p (left y) ds

section

variable {p q source : ParserId} {σ τ : Store W} {ds : List (Definition W)} {s : State Value}
  {k : Continuation W}

/-- Being defined as another parser is a definition, by the run function that the other one has
now. -/
theorem ParserId.Defined.as (h : p.Defined σ ds) (source : ParserId) :
    p.Defined (p.define source σ).2 (⟨σ.logging, (source.cell σ).1.code source⟩ :: ds) :=
  .define ((source.cell σ).1.code source) (fun _ => (source.cell σ).1.name) h

/-! ### One definition -/

theorem ParserId.Keeps.define (h : p.Keeps σ ds) (code : Code W) (rename : String → String) :
    p.Keeps (p.alter (fun c => { c.define σ.logging code with name := rename c.name }) σ).2
      (⟨σ.logging, code⟩ :: ds) := by
  obtain ⟨c, found, direct, logged⟩ := h
  refine ⟨{ c.define σ.logging code with name := rename c.name }, ?_, ?_, ?_⟩
  · show (σ.parsers.modify p.index _)[p.index]? = _
    simp [Array.getElem?_modify, found]
  · cases on : σ.logging <;> simp [Cell.define, Definition.direct?_cons, direct]
  · cases on : σ.logging <;> simp [Cell.define, Definition.logged?_cons, logged]

theorem ParserId.Keeps.elsewhere (h : p.Keeps σ ds) (f : Cell W → Cell W) (ne : q ≠ p) :
    p.Keeps (q.alter f σ).2 ds := by
  obtain ⟨c, found, kept⟩ := h
  refine ⟨c, ?_, kept⟩
  have other : q.index ≠ p.index := fun same => ne (congrArg ParserId.mk same)
  show (σ.parsers.modify q.index f)[p.index]? = _
  rw [Array.getElem?_modify, if_neg other, found]

theorem ParserId.Keeps.later (h : p.Keeps σ ds) (g : σ.Grows τ) : p.Keeps τ ds := by
  obtain ⟨c, found, direct, logged⟩ := h
  obtain ⟨d, found', direct', logged'⟩ := g.parsers _ c found
  exact ⟨d, found', direct'.trans direct, logged'.trans logged⟩

/-! ### All definitions -/

/-- However often a parser is defined, its cell keeps the latest definition of either kind. -/
theorem ParserId.Defined.keeps (h : p.Defined σ ds) : p.Keeps σ ds := by
  induction h with
  | bare σ name new =>
    subst new
    exact ⟨{ name := name }, Array.getElem?_push_size, rfl, rfl⟩
  | made σ name b new =>
    subst new
    -- A new parser is an empty cell that is defined once.
    refine ⟨_, Array.getElem?_push_size, ?_, ?_⟩
    · cases σ.logging <;> rfl
    · cases σ.logging <;> rfl
  | define code rename _ ih => exact ih.define code rename
  | switch on _ ih => exact ih
  | elsewhere q f ne _ ih => exact ih.elsewhere f ne
  | other composed run _ ih => exact ih.later (composed.grows_of_comes run)

/-! ### Running -/

/-- The first step of a parser that has been defined starts the run function in force. -/
theorem ParserId.Keeps.runs (h : p.Keeps σ ds) {d : Definition W}
    (found : Definition.inForce ds = some d) (s : State Value) (k : Continuation W) :
    ∃ τ, σ.Noted τ ∧ (Task.run p s k).step.Comes σ (.ok (.tail (.code d.code s k)) τ) := by
  obtain ⟨c, cell, direct, logged⟩ := h
  have inForce : c.inForce = some d.code := by
    rw [Definition.inForce_eq_or] at found
    rw [Cell.inForce, direct, logged, ← Option.map_or, found, Option.map_some]
  obtain ⟨τ, noted, step⟩ := step_run cell inForce s k
  exact ⟨τ, noted, comes_of_forall (fun n => step _) not_exhausted_ok⟩

/-- A parser that has not been defined raises a fault. -/
theorem ParserId.Keeps.refuses (h : p.Keeps σ []) (s : State Value) (k : Continuation W) :
    ∃ τ, σ.Noted τ ∧ (Task.run p s k).step.Comes σ (.error (.raised .undefinedParser) τ) := by
  obtain ⟨c, cell, direct, logged⟩ := h
  have none : c.inForce = none := by rw [Cell.inForce, direct, logged]; rfl
  obtain ⟨τ, noted, step⟩ := step_run_none cell none s k
  exact ⟨τ, noted, comes_of_forall (fun n => step _) (not_exhausted_error (by simp))⟩

end

/-- A parser runs the definition in force, whether logging is on or off by then: the latest one that
was made while logging was off, or where there is none, the latest one. So the latest definition
is run if it was made while logging was off, or if all of them were made while it was on; if it was
made while logging was on, behind one that was made while it was off, it is never run. -/
theorem definitions_in_force_run {p : ParserId} {σ : Store W} {ds : List (Definition W)}
    (history : p.Defined σ ds) :
    (∀ d, Definition.inForce ds = some d → ∀ s k,
      ∃ τ, σ.Noted τ ∧ (Task.run p s k).step.Comes σ (.ok (.tail (.code d.code s k)) τ)) ∧
    (ds = [] → ∀ s k,
      ∃ τ, σ.Noted τ ∧ (Task.run p s k).step.Comes σ (.error (.raised .undefinedParser) τ)) ∧
    ∀ d earlier, ds = d :: earlier →
      ((d.logging = false ∨ ∀ e ∈ earlier, e.logging = true) →
        Definition.inForce ds = some d) ∧
      (d.logging = true → ∀ e ∈ earlier, e.logging = false →
        ∃ e' ∈ earlier, e'.logging = false ∧ Definition.inForce ds = some e') := by
  refine ⟨fun d found => history.keeps.runs found, ?undefined, ?which⟩
  case undefined =>
    intro none
    subst none
    exact history.keeps.refuses
  case which =>
    intro d earlier latest
    subst latest
    constructor
    · exact Definition.inForce_latest
    · intro on e he off
      exact Definition.inForce_hidden on he off

/-- A forward declaration that is made while logging is off, and defined while it is on: the
definition is not run, and the parser still stands for one that is missing. -/
theorem definitions_in_force_run_undeclared :
    let p : ParserId := ⟨1⟩
    let token : Code Unit := .body (.some ⟨0⟩ fun _ => .done true)
    let declared : Store Unit := (Build.forward (.initial () fun _ _ => ())).2
    let τ : Store Unit :=
      (p.alter (fun c => c.define true token) { declared with logging := true }).2
    p.Defined τ [⟨true, token⟩, ⟨false, .body .undeclared⟩] ∧ ∀ s k, ∃ υ, τ.Noted υ ∧
      (Task.run p s k).step.Comes τ (.ok (.tail (.code (.body .undeclared) s k)) υ) := by
  intro p token declared τ
  have made : p.Defined declared [⟨false, .body .undeclared⟩] :=
    .made _ "forward_decl()" (fun _ => .undeclared) rfl
  have defined : p.Defined τ [⟨true, token⟩, ⟨false, .body .undeclared⟩] :=
    (made.switch true).define token id
  exact ⟨defined, fun s k => (definitions_in_force_run defined).1 _ rfl s k⟩

end ResumableParsing
