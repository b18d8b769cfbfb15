import ResumableParsing.Proofs.Stream.Likeness
import ResumableParsing.Proofs.Termination.Halting

/-!
# What programs reply

A program answers if it comes to a reply. What a parser answers is found by following its run
function, in a state whose input holds a list of tokens.

* `Stream.Lists`, `State.Lists`: inputs that hold a list of tokens
* `Action.Always`: what functions of the caller give in all later stores
* `Direct.Answers`: what a program replies
* `comes_join_group`, `comes_join_cons`: what sequences make of two results
* `answers_accept`, `answers_reject`, `answers_finished` and so on: single tokens, and the end
-/

namespace ResumableParsing

variable {W α : Type}

/-! ## Inputs -/

/-- In every later store, reading the stream gives these tokens and then comes to its end. -/
def Stream.Lists : List Value → Store W → Stream Value → Prop
  | [], σ, s => ∀ τ, σ.Evolves τ → ∃ υ, s.isEmpty.Comes τ (.ok true υ)
  | x :: xs, σ, s => ∀ τ, σ.Evolves τ →
      (∃ υ, s.isEmpty.Comes τ (.ok false υ)) ∧ (∃ υ, s.first.Comes τ (.ok x υ)) ∧
        ∃ t υ, s.rest.Comes τ (.ok t υ) ∧ Stream.Lists xs υ t

/-- A plain state whose input holds these tokens. -/
def State.Lists (xs : List Value) (σ : Store W) : State Value → Prop
  | .plain _ i _ _ => i.Lists xs σ
  | .chunked .. => False

/-! ## Functions of the caller -/

/-- In every later store the program comes to a result with the property. -/
def Action.Always (σ : Store W) (a : Action W α) (Q : α → Prop) : Prop :=
  ∀ τ, σ.Evolves τ → ∃ x υ, a.run.Comes τ (.ok x υ) ∧ Q x

section

variable {σ τ : Store W} {s : Stream Value} {x : Value} {xs : List Value} {r : State Value}

theorem Stream.Lists.later (h : s.Lists xs σ) (k : σ.Evolves τ) : s.Lists xs τ := by
  cases xs with
  | nil => exact fun υ k' => h υ (k.trans k')
  | cons x xs => exact fun υ k' => h υ (k.trans k')

theorem Stream.Lists.comes_isEmpty (h : s.Lists xs σ) :
    ∃ υ, s.isEmpty.Comes σ (.ok xs.isEmpty υ) := by
  cases xs with
  | nil => exact h σ .refl
  | cons x xs => exact (h σ .refl).1

theorem Stream.Lists.comes_first (h : s.Lists (x :: xs) σ) : ∃ υ, s.first.Comes σ (.ok x υ) :=
  (h σ .refl).2.1

theorem Stream.Lists.comes_rest (h : s.Lists (x :: xs) σ) :
    ∃ t υ, s.rest.Comes σ (.ok t υ) ∧ t.Lists xs υ := (h σ .refl).2.2

/-- Streams whose elements are all there hold them. -/
theorem Stream.Spells.lists (h : s.Spells xs) (σ : Store W) : s.Lists xs σ := by
  induction xs generalizing s σ with
  | nil => exact fun τ _ => ⟨τ, comes_of_forall (fun n => h.isEmpty (.within n) τ) not_exhausted_ok⟩
  | cons x xs ih =>
    intro τ _
    obtain ⟨t, ht, rest, -⟩ := h.rest (W := W)
    refine ⟨⟨τ, ?_⟩, ⟨τ, ?_⟩, t, τ, ?_, ih ht τ⟩
    · exact comes_of_forall (fun n => h.isEmpty (.within n) τ) not_exhausted_ok
    · exact comes_of_forall (fun n => h.first (.within n) τ) not_exhausted_ok
    · exact comes_of_forall (fun n => rest (.within n) τ) not_exhausted_ok

theorem State.Lists.later (h : r.Lists xs σ) (k : σ.Evolves τ) : r.Lists xs τ := by
  cases r with
  | plain w i p u => exact Stream.Lists.later h k
  | chunked a c s => exact h

theorem State.Lists.input (h : r.Lists xs σ) : r.input.Lists xs σ := by
  cases r with
  | plain w i p u => exact h
  | chunked a c s => exact h.elim

theorem Action.Always.later {a : Action W α} {P : α → Prop} (h : a.Always σ P)
    (k : σ.Evolves τ) : a.Always τ P := fun υ k' => h υ (k.trans k')

theorem Action.always_done {a b : α} (h : a = b) :
    (Action.done a : Action W α).Always σ fun c => c = b := fun τ _ => ⟨a, τ, comes_pure a τ, h⟩

end

/-! ## Programs that reply -/

/-- The program comes to a reply with the property. -/
def Direct.Answers (Q : Reply Value → Store W → Prop) (σ : Store W) (x : Direct W (Reply Value)) :
    Prop :=
  ∃ r τ, x.Comes σ (.reply r) τ ∧ σ.Evolves τ ∧ Q r τ

namespace Direct.Answers

variable {β : Type} {σ τ : Store W} {Q Q' : Reply Value → Store W → Prop} {r : Reply Value}
  {s : State Value} {p : ParserId} {j : Job W} {k : Reply Value → Direct W (Reply Value)}
  {x : Eval W β} {f : β → Direct W (Reply Value)} {b : β}

theorem done (h : Q r σ) : (Direct.done r).Answers Q σ := ⟨r, σ, .done r σ, .refl, h⟩

theorem act (hx : Composed x) (h : x.Comes σ (.ok b τ))
    (hf : σ.Evolves τ → (f b).Answers Q τ) : (Direct.act x f).Answers Q σ := by
  have evolves : σ.Evolves τ := hx.evolves h
  obtain ⟨r, υ, comes, k, hr⟩ := hf evolves
  exact ⟨r, υ, .act h comes, evolves.trans k, hr⟩

theorem call (hj : j.direct.Answers Q' σ)
    (hk : ∀ r τ, σ.Evolves τ → Q' r τ → (k r).Answers Q τ) : (Direct.call j k).Answers Q σ := by
  obtain ⟨r, τ, reply, evolves, hr⟩ := hj
  obtain ⟨r', υ, comes, k, hr'⟩ := hk r τ evolves hr
  exact ⟨r', υ, .call reply comes, evolves.trans k, hr'⟩

theorem debug (message : Store W → String) {f : Unit → Direct W (Reply Value)}
    (hf : ∀ τ, σ.Evolves τ → (f ()).Answers Q τ) :
    (Direct.act (Eval.debug message) f).Answers Q σ := by
  obtain ⟨τ, noted, comes⟩ := comes_debug message σ
  exact act (.debug message) comes fun _ => hf τ noted.evolves

theorem refuse {reason : Reason} {expected : List ParserId}
    (h : ∀ e τ, σ.Evolves τ → Q (.err false e s) τ) :
    (Direct.refuse reason expected s).Answers Q σ := by
  have drawn : (Eval.serial : Eval W Nat).Comes σ
      (.ok σ.nextSerial { σ with nextSerial := σ.nextSerial + 1 }) :=
    comes_of_forall (fun _ => rfl) not_exhausted_ok
  exact act .serial drawn fun k => done (h _ _ k)

/-- A parser replies as its run function does. Before it, the attempt may be noted in the log. -/
theorem runs_noted {code : Code W} (h : p.Runs σ code)
    (hc : ∀ τ, σ.Noted τ → (Job.code code s).direct.Answers Q τ) :
    (Job.parser p s).direct.Answers Q σ := by
  obtain ⟨σ₁, noted, comes⟩ := h.comes s
  obtain ⟨r, τ, reply, evolves, hr⟩ := hc σ₁ noted
  exact ⟨r, τ, comes (.reply r) τ trivial reply, noted.evolves.trans evolves, hr⟩

theorem runs {code : Code W} (h : p.Runs σ code)
    (hc : ∀ τ, σ.Evolves τ → (Job.code code s).direct.Answers Q τ) :
    (Job.parser p s).direct.Answers Q σ := runs_noted h fun τ noted => hc τ noted.evolves

/-- A run function that another definition has captured replies as the parser does. -/
theorem captured {code : Code W} (h : p.Captured σ code)
    (hp : (Job.parser p s).direct.Answers Q σ) : (Job.code code s).direct.Answers Q σ := by
  obtain ⟨r, τ, reply, evolves, hr⟩ := hp
  exact ⟨r, τ, h.comes (u := .reply r) trivial reply, evolves, hr⟩

end Direct.Answers

/-! ## Joined results -/

/-- The results of parsers in sequence are grouped. -/
theorem comes_join_group (v w : Value) (σ : Store W) :
    (Combine.group.join v w).Comes σ (.ok (v.beside w) σ) := by
  cases v <;> exact comes_pure _ σ

/-- A value is put in front of a stream, in a cell of its own. -/
theorem comes_join_cons (v : Value) (i : Stream Value) (σ : Store W) :
    ∃ τ, (Combine.cons.join v (.stream i)).Comes σ (.ok (.stream (.cons σ.nextSerial v i)) τ) :=
  ⟨_, comes_of_forall (fun _ => rfl) not_exhausted_ok⟩

/-! ## Single tokens -/

section

open Direct.Answers (done act call debug refuse)

variable {σ : Store W} {s : State Value} {x : Value} {xs : List Value} {self : ParserId}
  {f : Value → Action W Bool} {Q : Reply Value → Store W → Prop}

/-- A token that the predicate accepts is the result, and the state moves past it. -/
theorem answers_accept (hs : s.Lists (x :: xs) σ) (hf : (f x).Always σ fun c => c = true)
    (h : ∀ w i j position u τ, s = .plain w i position u → σ.Evolves τ → j.Lists xs τ →
      Q (.ok true x (.plain w j (position + 1) u)) τ) :
    ((Body.some self f).direct s).Answers Q σ := by
  obtain ⟨σ₁, empty⟩ := hs.input.comes_isEmpty
  refine act (composed_isEmpty _) empty fun k₁ => ?_
  obtain ⟨σ₂, first⟩ := (hs.later k₁).input.comes_first
  refine act (composed_first _) first fun k₂ => ?_
  obtain ⟨_, σ₃, accepted, rfl⟩ := hf σ₂ (k₁.trans k₂)
  refine act (composed_action _) accepted fun k₃ => ?_
  have evolves : σ.Evolves σ₃ := (k₁.trans k₂).trans k₃
  have lists := hs.later evolves
  cases s with
  -- Only plain states hold a list of tokens.
  | chunked a c s => exact lists.elim
  | plain w i position u =>
    obtain ⟨j, τ, past, k, hj⟩ := comes_past_of_rest w position u
      (Q := fun j τ => j.Lists xs τ) (fun τ k => (Stream.Lists.later lists k).comes_rest)
      (fun j τ υ h k => h.later k) x
    have past : (Job.past (.plain w i position u) x).direct.Answers (fun r τ =>
        ∃ j, r = .arrival (.plain w j (position + 1) u) ∧ j.Lists xs τ) σ₃ :=
      ⟨_, τ, past, k, j, rfl, hj⟩
    refine call past fun r τ k hr => debug _ fun υ k' => done ?_
    obtain ⟨j, rfl, hj⟩ := hr
    exact h w i j position u υ rfl ((evolves.trans k).trans k') (hj.later k')

/-- Another token is not taken. -/
theorem answers_reject (hs : s.Lists (x :: xs) σ) (hf : (f x).Always σ fun c => c = false)
    (h : ∀ e τ, σ.Evolves τ → Q (.err false e s) τ) :
    ((Body.some self f).direct s).Answers Q σ := by
  obtain ⟨σ₁, empty⟩ := hs.input.comes_isEmpty
  refine act (composed_isEmpty _) empty fun k₁ => ?_
  obtain ⟨σ₂, first⟩ := (hs.later k₁).input.comes_first
  refine act (composed_first _) first fun k₂ => ?_
  obtain ⟨_, σ₃, rejected, rfl⟩ := hf σ₂ (k₁.trans k₂)
  refine act (composed_action _) rejected fun k₃ => debug _ fun σ₄ k₄ => ?_
  refine act .get (comes_change (g := fun σ => (σ, σ)) (fun _ _ => rfl) σ₄) fun k₅ => ?_
  exact refuse fun e τ k => h e τ (((((k₁.trans k₂).trans k₃).trans k₄).trans k₅).trans k)

/-- At the end of the input there is no token. -/
theorem answers_lacking (hs : s.Lists [] σ) (h : ∀ e τ, σ.Evolves τ → Q (.err false e s) τ) :
    ((Body.some self f).direct s).Answers Q σ := by
  obtain ⟨σ₁, empty⟩ := hs.input.comes_isEmpty
  exact act (composed_isEmpty _) empty fun k => refuse fun e τ k' => h e τ (k.trans k')

theorem answers_finished (hs : s.Lists [] σ) (h : ∀ τ, σ.Evolves τ → Q (.ok false .none s) τ) :
    ((Body.finished self : Body W).direct s).Answers Q σ := by
  obtain ⟨τ, empty⟩ := hs.input.comes_isEmpty
  exact act (composed_isEmpty _) empty fun k => done (h τ k)

theorem answers_unfinished (hs : s.Lists (x :: xs) σ)
    (h : ∀ e τ, σ.Evolves τ → Q (.err false e s) τ) :
    ((Body.finished self : Body W).direct s).Answers Q σ := by
  obtain ⟨σ₁, empty⟩ := hs.input.comes_isEmpty
  refine act (composed_isEmpty _) empty fun k₁ => ?_
  obtain ⟨σ₂, first⟩ := (hs.later k₁).input.comes_first
  refine act (composed_first _) first fun k₂ => ?_
  refine act .get (comes_change (g := fun σ => (σ, σ)) (fun _ _ => rfl) σ₂) fun k₃ => ?_
  exact refuse fun e τ k => h e τ (((k₁.trans k₂).trans k₃).trans k)

end

end ResumableParsing
