import ResumableParsing.Proofs.Direct.Spec
import ResumableParsing.Proofs.Errors.Honest
import ResumableParsing.Proofs.Reading.Behind
import ResumableParsing.Proofs.Stream.Questions

/-!
# What errors say is true

A failing parser gives up in one state and reports an error in another one, which lies behind it or
is the same. The message is about the token at the reported state, and the parsers that are named
as expected there really fail there. A choice combines two errors only at the same position, so the
parsers expected by either of them fail at the state of the other one as well.

* `ParserId.Refuses`: a parser fails at every state with a certain input
* `ParseError.Sound`, `Reply.Tells`: what is true of errors and replies
* `tellingSpec`: the specification of all jobs
* `errors_are_honest`: the errors of the library's parsers are honest
-/

namespace ResumableParsing

variable {W : Type}

/-! ## What errors say -/

/-- The parser fails without consuming in every state with this input, now and later. -/
def ParserId.Refuses (σ : Store W) (p : ParserId) (i : Stream Value) : Prop :=
  ∀ τ, σ.Grows τ → ∀ s : State Value, s.input = i →
    ∃ e τ', (p.run s).Comes τ (.ok (.reply (.err false e s)) τ')

/-- The message fits the input, as it was shown in some store since `σ₀`. The messages of failures
are among `M`. -/
def Reason.Fits (M : String → Prop) (σ₀ σ : Store W) (i : Stream Value) : Reason → Prop
  | .endOfInput => i.Vacant σ
  | .unexpected text => ∃ v υ, i.Head σ v ∧ σ₀.Grows υ ∧ υ.Grows σ ∧ text = υ.render v
  | .custom message => M message

/-- What the error says is true. -/
structure ParseError.Sound (M : String → Prop) (σ₀ σ : Store W) (e : ParseError Value) : Prop where
  /-- The message fits. -/
  reason : e.reason.Fits M σ₀ σ e.state.input
  /-- Parsers that are expected fail. -/
  expected : ∀ p ∈ e.expected, p.Refuses σ e.state.input

/-- The states of a plain run have no chunks behind them. -/
def noChunks : Int → Stream Value := fun _ => .nil

/-- The states of the reply to a parser started in `s` lie behind it, and what an error says is
true. Its state lies behind the state of the reply, and is the same unless `A` holds. -/
def Reply.Tells (A : Prop) (M : String → Prop) (σ₀ σ : Store W) (s : State Value) :
    Reply Value → Prop
  | .ok _ _ t => ∃ n, s.Follows σ noChunks n t
  | .err _ e t => ∃ n m, s.Follows σ noChunks n t ∧ s.Follows σ noChunks m e.state ∧ n ≤ m ∧
      (¬A → m = n) ∧ e.Sound M σ₀ σ

section

variable {A : Prop} {M : String → Prop} {σ₀ σ₁ σ τ υ : Store W} {s t : State Value}
  {p : ParserId} {i : Stream Value} {e e' : ParseError Value} {r r' : Reply Value} {n : Nat}

theorem ParserId.Refuses.later (h : p.Refuses σ i) (k : σ.Grows τ) : p.Refuses τ i :=
  fun υ k' => h υ (k.trans k')

theorem Reason.Fits.later {x : Reason} (h : x.Fits M σ₁ σ i) (k₀ : σ₀.Grows σ₁)
    (k : σ.Grows τ) : x.Fits M σ₀ τ i := by
  cases x with
  | endOfInput => exact Stream.Vacant.later h k.knows
  | unexpected text =>
    obtain ⟨v, υ, hv, k₁, k₂, e⟩ := h
    exact ⟨v, υ, hv.later k.knows, k₀.trans k₁, k₂.trans k, e⟩
  | custom message => exact h

theorem ParseError.Sound.later (h : e.Sound M σ₁ σ) (k₀ : σ₀.Grows σ₁) (k : σ.Grows τ) :
    e.Sound M σ₀ τ :=
  ⟨h.reason.later k₀ k, fun p hp => (h.expected p hp).later k⟩

theorem Reply.Tells.later (h : r.Tells A M σ₁ σ s) (k₀ : σ₀.Grows σ₁) (k : σ.Grows τ) :
    r.Tells A M σ₀ τ s := by
  cases r with
  | ok d v t =>
    obtain ⟨n, hf⟩ := h
    exact ⟨n, hf.later k.knows⟩
  | err d e t =>
    obtain ⟨n, m, hf, hf', le, same, sound⟩ := h
    exact ⟨n, m, hf.later k.knows, hf'.later k.knows, le, same, sound.later k₀ k⟩

/-- A parser that starts behind `n` tokens tells the same of the state before them. -/
theorem Reply.Tells.after (h : r.Tells A M σ₀ σ t) (hs : s.Follows σ noChunks n t) :
    r.Tells A M σ₀ σ s := by
  cases r with
  | ok d v u =>
    obtain ⟨k, hf⟩ := h
    exact ⟨n + k, hs.trans hf⟩
  | err d e u =>
    obtain ⟨k, m, hf, hf', le, same, sound⟩ := h
    exact ⟨n + k, n + m, hs.trans hf, hs.trans hf', by omega, fun ha => by rw [same ha], sound⟩

/-! ## Failures -/

/-- The input is the same behind the same number of tokens. -/
theorem State.Follows.input_unique {u : State Value} (h : s.Follows σ noChunks n t)
    (h' : s.Follows σ noChunks n u) : t.input = u.input := by
  have same := (h.restsAcross (k := 0)).symm.trans h'.restsAcross
  rw [← cursor_input, ← cursor_input]
  cases he : t.cursor with
  | mk cs j =>
    rw [he] at same
    cases hu : u.cursor with
    | mk ds k =>
      rw [hu] at same
      cases same
      rfl

/-- Two failures of a choice combined tell the truth: they are combined only where they are at the
same position, and there the same input is left. -/
theorem Reply.Tells.merge {d d' : Bool} {t' : State Value} (h : (Reply.err d e t).Tells A M σ₀ σ s)
    (h' : (Reply.err d' e' t').Tells A M σ₀ σ s) (number : Nat) :
    (Reply.err d' (e.merge number e') t').Tells A M σ₀ σ s := by
  obtain ⟨n, m, -, hf, -, -, sound⟩ := h
  obtain ⟨n', m', ht, hf', le, same, sound'⟩ := h'
  rw [ParseError.merge]
  split
  · exact ⟨n', m', ht, hf', le, same, sound'⟩
  · next here =>
    rw [hf.position, hf'.position] at here
    obtain rfl : m = m' := by omega
    refine ⟨n', m, ht, hf', le, same, sound'.reason, fun p hp => ?_⟩
    rcases List.mem_append.mp hp with hp | hp
    · rw [← hf.input_unique hf']
      exact sound.expected p hp
    · exact sound'.expected p hp

/-! ## Parsers that fail -/

/-- A parser of a single token fails at the end of the input. -/
theorem refuses_some_vacant {f : Value → Action W Bool} (h : p.Performs σ (.some p f))
    (hi : i.Vacant σ) : p.Refuses σ i := by
  intro τ k s hs
  obtain ⟨σ₁, noted, ends⟩ := ParserId.Does.evaluates (ParserId.Performs.does (h.later k)) s
  have empty : s.input.isEmpty (.within 1) σ₁ = .ok true σ₁ :=
    isEmpty_of_vacant (hs ▸ hi.later (k.trans noted.grows).knows)
  exact ⟨_, _, comes_of_evaluates (ends (.act empty (.act rfl .done)))⟩

/-- A parser of a single token fails at a token that its predicate does not accept. -/
theorem refuses_some_head {f : Value → Action W Bool} {v : Value} (h : p.Performs σ (.some p f))
    (hi : i.Head σ v) (hf : (f v).Answers σ false) : p.Refuses σ i := by
  intro τ k s hs
  obtain ⟨σ₁, noted, ends⟩ := ParserId.Does.evaluates (ParserId.Performs.does (h.later k)) s
  have k₁ := k.trans noted.grows
  obtain ⟨σ₂, -, b, refused⟩ := hf σ₁ k₁
  have head : s.input.Head σ₁ v := hs ▸ hi.later k₁.knows
  have empty : s.input.isEmpty (.within (b + 1)) σ₁ = .ok false σ₁ :=
    isEmpty_of_occupied head.occupied
  have first : s.input.first (.within (b + 1)) σ₁ = .ok v σ₁ := first_of_head head
  have answer : (f v).run (.within (b + 1)) σ₁ = .ok false σ₂ := refused (b + 1) (by omega)
  exact ⟨_, _, comes_of_evaluates (ends (.act empty (.act first (.act answer
    (.act (Eval.run_debug _ _ _) (.act (Eval.run_get _ _) (.act (Eval.run_serial _ _) .done)))))))⟩

/-- The parser at the end of the input fails where there is a token. -/
theorem refuses_finished {v : Value} (h : p.Performs σ (.finished p)) (hi : i.Head σ v) :
    p.Refuses σ i := by
  intro τ k s hs
  obtain ⟨σ₁, noted, ends⟩ := ParserId.Does.evaluates (ParserId.Performs.does (h.later k)) s
  have head : s.input.Head σ₁ v := hs ▸ hi.later (k.trans noted.grows).knows
  have empty : s.input.isEmpty (.within 1) σ₁ = .ok false σ₁ := isEmpty_of_occupied head.occupied
  have first : s.input.first (.within 1) σ₁ = .ok v σ₁ := first_of_head head
  exact ⟨_, _, comes_of_evaluates (ends (.act empty (.act first
    (.act (Eval.run_get _ _) (.act (Eval.run_serial _ _) .done)))))⟩

end

/-! ## The specification -/

/-- A state outside chunks. -/
def State.IsPlain (s : State Value) : Prop := s.chunk? = none

theorem State.Follows.isPlain {σ : Store W} {s t : State Value} {n : Nat}
    (h : s.Follows σ noChunks n t) (hs : s.IsPlain) : t.IsPlain := by
  induction h with
  | refl s => exact hs
  | step _ hb ih =>
    cases hb with
    | plain => rfl
    | within => cases ih hs
    | across => cases ih hs

/-- Any part of the library may be used. -/
abbrev anything : Reach → Prop := fun _ => True

/-- The job belongs to the honest parsers of the set. -/
def Job.Honest (A : Prop) (M : String → Prop) (P : ParserId → Prop) (σ : Store W) :
    Job W → Prop
  | .parser p s => P p ∧ s.IsPlain
  | .code c s => c.Library anything P ∧ c.Honest A M σ ∧ s.IsPlain
  | .past s _ => s.IsPlain

/-- The reply of the job tells the truth. -/
def Job.Tells (A : Prop) (M : String → Prop) (σ₀ σ : Store W) : Job W → Reply Value → Prop
  | .parser _ s, r => r.Tells A M σ₀ σ s
  | .code _ s, r => r.Tells A M σ₀ σ s
  | .past s _, r => ∃ t, r = .arrival t ∧ s.Behind σ noChunks t

/-- A set of honest parsers, in a later store perhaps more of them. -/
structure Honestly (A : Prop) (M : String → Prop) (P : ParserId → Prop) (σ : Store W)
    (P' : ParserId → Prop) (τ : Store W) : Prop where
  /-- The parsers of the set. -/
  le : ∀ p, P p → P' p
  /-- They only start one another. -/
  closed : Closed anything P' τ
  /-- They report honestly. -/
  honest : AllHonest A M P' τ
  /-- What is known stays known. -/
  grows : σ.Grows τ

/-- The specification of all jobs. The index is the set of parsers that a job may start. -/
def tellingSpec (A : Prop) (M : String → Prop) : Spec W (ParserId → Prop) where
  Pre P j σ := Closed anything P σ ∧ AllHonest A M P σ ∧ j.Honest A M P σ
  Post P j σ r τ := ∃ P', Honestly A M P σ P' τ ∧ j.Tells A M σ τ r
  Wait _ _ _ _ := True

section

variable {A : Prop} {M : String → Prop} {P P' P'' : ParserId → Prop} {σ τ υ : Store W} {n : Nat}
  {j j' : Job W} {s : State Value} {r : Reply Value}

theorem Honestly.refl (hP : Closed anything P σ) (hH : AllHonest A M P σ) :
    Honestly A M P σ P σ := ⟨fun _ h => h, hP, hH, .refl σ⟩

theorem Honestly.trans (h : Honestly A M P σ P' τ) (h' : Honestly A M P' τ P'' υ) :
    Honestly A M P σ P'' υ :=
  ⟨fun p hp => h'.le p (h.le p hp), h'.closed, h'.honest, h.grows.trans h'.grows⟩

theorem Honestly.later (h : Honestly A M P σ P' τ) (k : τ.Grows υ) : Honestly A M P σ P' υ :=
  ⟨h.le, h.closed.later k, h.honest.later h.closed k, h.grows.trans k⟩

/-- A program meets the postconditions of a job that was started before. -/
abbrev TellsFor (A : Prop) (M : String → Prop) (n : Nat) (P : ParserId → Prop) (j : Job W)
    (σ : Store W) : Direct W (Reply Value) → Store W → Prop :=
  (tellingSpec A M).Meets (.within n) noChunks ((tellingSpec A M).Post P j σ) fun _ => True

/-! ### Pieces of programs -/

theorem tells_act {β : Type} {x : Eval W β} {k : β → Direct W (Reply Value)}
    (h : Honestly A M P σ P' τ) (hx : Composed x)
    (hk : ∀ b υ, Honestly A M P σ P' υ → τ.Grows υ → x (.within n) τ = .ok b υ →
      TellsFor A M n P j σ (k b) υ) :
    TellsFor A M n P j σ (.act x k) τ := by
  refine .act fun b υ e => ?_
  have grows : τ.Grows υ := hx.grows_of_ok e
  exact hk b υ (h.later grows) grows e

theorem tells_fault {e : Fault} {k : Reply Value → Direct W (Reply Value)} :
    TellsFor A M n P j σ (.act (Eval.fault e) k) τ := .act fun _ _ h => by cases h

theorem tells_get {k : Store W → Direct W (Reply Value)} (hk : TellsFor A M n P j σ (k τ) τ) :
    TellsFor A M n P j σ (.act get k) τ := by
  refine .act fun _ _ e => ?_
  cases e
  exact hk

theorem tells_call {k : Reply Value → Direct W (Reply Value)} (h : Honestly A M P σ P' τ)
    (hj : j'.Honest A M P' τ)
    (hk : ∀ r P'' υ, Honestly A M P σ P'' υ → Honestly A M P' τ P'' υ → j'.Tells A M τ υ r →
      TellsFor A M n P j σ (k r) υ) :
    TellsFor A M n P j σ (.call j' k) τ := by
  refine .call P' ⟨h.closed, h.honest, hj⟩ ?_ fun _ _ => trivial
  rintro r υ ⟨P'', h', hr⟩
  exact hk r P'' υ (h.trans h') h' hr

/-- A parser is run. -/
theorem tells_run {p : ParserId} {k : Reply Value → Direct W (Reply Value)}
    (h : Honestly A M P σ P' τ) (hp : P' p) (hs : s.IsPlain)
    (hk : ∀ r P'' υ, Honestly A M P σ P'' υ → Honestly A M P' τ P'' υ → r.Tells A M τ υ s →
      TellsFor A M n P j σ (k r) υ) :
    TellsFor A M n P j σ (.call (.parser p s) k) τ :=
  tells_call h ⟨hp, hs⟩ hk

theorem tells_done (h : Honestly A M P σ P' τ) (hr : j.Tells A M σ τ r) :
    TellsFor A M n P j σ (.done r) τ := .done ⟨P', h, hr⟩

/-- A grammar is built and its parser run. -/
theorem tells_build {g : Grammar W} {k : ParserId → Direct W (Reply Value)}
    (h : Honestly A M P σ P' τ) (hl : g.Library anything P') (hg : g.Honest A M)
    (hk : ∀ q P'' υ, Honestly A M P σ P'' υ → τ.Grows υ → P'' q →
      TellsFor A M n P j σ (k q) υ) :
    TellsFor A M n P j σ (.act (Eval.ofBuild g.build) k) τ := by
  refine .act fun q υ e => ?_
  cases e
  obtain ⟨P'', le, closed, honest, hq⟩ := h.honest.build h.closed hl hg
  have grows := g.build_grows.grows τ
  exact hk _ P'' _ ⟨fun p hp => le p (h.le p hp), closed, honest, h.grows.trans grows⟩ grows hq

/-- The failure of a primitive parser is the start of every error. -/
theorem tells_refuse {c : Code W} {reason : Reason} {expected : List ParserId}
    (h : Honestly A M P σ P' τ) (hr : reason.Fits M σ τ s.input)
    (he : ∀ p ∈ expected, p.Refuses τ s.input) :
    TellsFor A M n P (.code c s) σ (Direct.refuse reason expected s) τ := by
  refine tells_act h .serial fun number υ h' k _ => ?_
  refine tells_done h' ⟨0, 0, .refl s, .refl s, Nat.le_refl 0, fun _ => rfl, ?_, fun p hp => ?_⟩
  · exact hr.later (.refl σ) k
  · exact (he p hp).later k

theorem Reply.Tells.isPlain {d : Bool} {v : Value} {t : State Value}
    (h : (Reply.ok d v t).Tells A M σ τ s) (hs : s.IsPlain) : t.IsPlain := by
  obtain ⟨n, hf⟩ := h
  exact hf.isPlain hs

/-! ### Programs -/

theorem body_tells {b : Body W} (hP : Closed anything P σ) (hH : AllHonest A M P σ)
    (hb : b.Library anything P) (ho : b.Honest A M σ) (hs : s.IsPlain) :
    TellsFor A M n P (.code (.body b) s) σ (b.direct s) σ := by
  have h₀ := Honestly.refl hP hH
  cases b with
  | some self f =>
    obtain ⟨performs, steady⟩ := ho
    refine tells_act h₀ (composed_isEmpty _) fun empty σ₁ h₁ k₁ e₁ => ?_
    have known := known_of_isEmpty e₁
    rw [Direct.done_bind]
    cases empty with
    | true =>
      refine tells_refuse h₁ known fun p hp => ?_
      obtain rfl := List.mem_singleton.mp hp
      exact refuses_some_vacant (performs.later k₁) known
    | false =>
      rw [if_neg Bool.false_ne_true]
      refine tells_act h₁ (composed_first _) fun token σ₂ h₂ k₂ e₂ => ?_
      have head := head_of_first e₂
      refine tells_act h₂ (composed_action _) fun ok σ₃ h₃ k₃ e₃ => ?_
      rw [Direct.done_bind]
      cases ok with
      | true =>
        refine tells_call h₃ hs fun r P₄ σ₄ h₄ _ hr => ?_
        refine tells_act h₄ (.debug _) fun _ σ₅ h₅ k₅ _ => ?_
        obtain ⟨t, rfl, behind⟩ := hr
        exact tells_done h₅ ⟨1, .step (.refl s) (behind.later k₅.knows)⟩
      | false =>
        -- The predicate has answered, so it answers the same when the parser is tried again.
        have refused := steady token e₃
        refine tells_act h₃ (.debug _) fun _ σ₄ h₄ k₄ _ => tells_get ?_
        have head := head.later (k₃.trans k₄).knows
        refine tells_refuse h₄ ⟨token, σ₄, head, h₄.grows, .refl σ₄, rfl⟩ fun p hp => ?_
        obtain rfl := List.mem_singleton.mp hp
        exact refuses_some_head (performs.later h₄.grows) head fun υ k => refused υ (k₄.trans k)
  | pure v => exact tells_done h₀ ⟨0, .refl s⟩
  | fail m => exact tells_refuse h₀ ho fun p hp => by cases hp
  | finished self =>
    refine tells_act h₀ (composed_isEmpty _) fun empty σ₁ h₁ k₁ e₁ => ?_
    rw [Direct.done_bind]
    cases empty with
    | true => exact tells_done h₁ ⟨0, .refl s⟩
    | false =>
      rw [if_neg Bool.false_ne_true]
      refine tells_act h₁ (composed_first _) fun token σ₂ h₂ k₂ e₂ => tells_get ?_
      have head := head_of_first e₂
      refine tells_refuse h₂ ⟨token, σ₂, head, h₂.grows, .refl σ₂, rfl⟩ fun p hp => ?_
      obtain rfl := List.mem_singleton.mp hp
      exact refuses_finished (ParserId.Runs.later ho h₂.grows) head
  | undeclared => exact tells_fault
  | seq p q c =>
    refine tells_run h₀ (hb.1) hs fun r P₁ σ₁ h₁ _ hr => ?_
    cases r with
    | err d e t => exact tells_done h₁ hr
    | ok d v t =>
      have ht := Reply.Tells.isPlain hr hs
      obtain ⟨n₁, hf⟩ := hr
      refine tells_run h₁ (h₁.le _ hb.2) ht fun r' P₂ σ₂ h₂ h₁₂ hr' => ?_
      have hr' := (Reply.Tells.later hr' h₁.grows (.refl σ₂)).after (hf.later h₁₂.grows.knows)
      cases r' with
      | err d' e u => exact tells_done h₂ hr'
      | ok d' w u =>
        refine tells_act h₂ (composed_join c v w) fun x σ₃ h₃ k₃ _ => ?_
        exact tells_done h₃ (Reply.Tells.later hr' (.refl σ) k₃)
  | alt p q =>
    refine tells_run h₀ (hb.1) hs fun r P₁ σ₁ h₁ _ hr => ?_
    rcases r with ⟨d, v, t⟩ | ⟨_ | _, e, t⟩
    · exact tells_done h₁ hr
    · refine tells_run h₁ (h₁.le _ hb.2) hs fun r' P₂ σ₂ h₂ h₁₂ hr' => ?_
      have hr' := Reply.Tells.later hr' h₁.grows (.refl σ₂)
      rcases r' with ⟨d, v, t⟩ | ⟨_ | _, e', t'⟩
      · exact tells_done h₂ hr'
      · refine tells_act h₂ .serial fun number σ₃ h₃ k₃ _ => ?_
        have hr := Reply.Tells.later hr (.refl σ) (h₁₂.grows.trans k₃)
        exact tells_done h₃ (hr.merge (hr'.later (.refl σ) k₃) number)
      · exact tells_done h₂ hr'
    · exact tells_done h₁ hr
  | map p f =>
    refine tells_run h₀ (hb.1) hs fun r P₁ σ₁ h₁ _ hr => ?_
    cases r with
    | err d e t => exact tells_done h₁ hr
    | ok d v t =>
      refine tells_act h₁ (composed_action _) fun w σ₂ h₂ k₂ _ => ?_
      exact tells_done h₂ (Reply.Tells.later hr (.refl σ) k₂)
  | bind p f =>
    refine tells_run h₀ (hb.1) hs fun r P₁ σ₁ h₁ _ hr => ?_
    cases r with
    | err d e t => exact tells_done h₁ hr
    | ok d v t =>
      have ht := Reply.Tells.isPlain hr hs
      obtain ⟨n₁, hf⟩ := hr
      refine tells_act h₁ (composed_action _) fun g σ₂ h₂ k₂ e₂ => ?_
      have library := (hb.2.2 v _ _ _ _ e₂).mono (fun _ h => h) h₂.le
      refine tells_build h₂ library (ho v _ _ _ _ e₂) fun q P₃ σ₃ h₃ k₃ hq => ?_
      refine tells_run h₃ (hq) ht fun r' P₄ σ₄ h₄ h₃₄ hr' => ?_
      have k := k₂.trans (k₃.trans h₃₄.grows)
      have hr' := (Reply.Tells.later hr' h₃.grows (.refl σ₄)).after (hf.later k.knows)
      cases d with
      | true => cases r' <;> exact tells_done h₄ hr'
      | false => exact tells_done h₄ hr'
  | ignore inner =>
    refine tells_call h₀ ⟨hb, ho, hs⟩ fun r P₁ σ₁ h₁ _ hr => ?_
    cases r <;> exact tells_done h₁ hr
  | attempt p =>
    refine tells_run h₀ (hb) hs fun r P₁ σ₁ h₁ _ hr => ?_
    rcases r with ⟨d, v, t⟩ | ⟨_ | _, e, t⟩
    · exact tells_done h₁ hr
    · exact tells_done h₁ hr
    · -- The reply goes back to the start; the error stays where it was found.
      obtain ⟨n₁, m, -, hf, -, -, sound⟩ := hr
      exact tells_done h₁ ⟨0, m, .refl s, hf, Nat.zero_le m, fun ha => absurd ho ha, sound⟩
  | many self p =>
    refine tells_run h₀ (hb.2) hs fun r P₁ σ₁ h₁ _ hr => ?_
    rcases r with ⟨_ | _, v, t⟩ | ⟨_ | _, e, t⟩
    · exact tells_get tells_fault
    · have ht := Reply.Tells.isPlain hr hs
      obtain ⟨n₁, hf⟩ := hr
      refine tells_run h₁ (h₁.le _ hb.1) ht fun r' P₂ σ₂ h₂ h₁₂ hr' => ?_
      have hr' := (Reply.Tells.later hr' h₁.grows (.refl σ₂)).after (hf.later h₁₂.grows.knows)
      cases r' with
      | ok d w u =>
        refine tells_act h₂ (composed_join .cons v w) fun x σ₃ h₃ k₃ _ => ?_
        exact tells_done h₃ (Reply.Tells.later hr' (.refl σ) k₃)
      | err d e u => exact tells_done h₂ hr'
    · exact tells_done h₁ ⟨0, .refl s⟩
    · exact tells_done h₁ hr
  | cell v again =>
    exact tells_act h₀ (composed_lazyCell v _) fun x σ₁ h₁ _ _ => tells_done h₁ ⟨0, .refl s⟩
  | native run => exact hb.elim
  | after p run => exact hb.elim

/-- Moving a plain state past its first token leads to the state behind it. -/
theorem past_tells (hP : Closed anything P σ) (hH : AllHonest A M P σ) (hs : s.IsPlain)
    (token : Value) : TellsFor A M n P (.past s token) σ (s.directNext token) σ := by
  have h₀ := Honestly.refl hP hH
  cases s with
  | chunked a c s => cases hs
  | plain w i position u =>
    have onward {τ : Store W} (h : Honestly A M P σ P τ) :
        TellsFor A M n P (.past (.plain w i position u) token) σ (do
          let t ← Direct.eval (State.plain w i position u).advance
          Direct.eval (Eval.debug fun _ => "trying " ++ Task.settleName)
          return .arrival t) τ := by
      refine tells_act h (composed_advance _) fun t σ₁ h₁ _ e => ?_
      obtain ⟨i', rfl, next⟩ := next_of_advance e
      refine tells_act h₁ (.debug _) fun _ σ₂ h₂ k₂ _ => ?_
      exact tells_done h₂ ⟨_, rfl, .plain (next.later k₂.knows)⟩
    cases w with
    | true =>
      refine tells_act h₀ (.modify fun σ => { Store.Adds.refl σ with }) fun _ σ₁ h₁ _ _ => ?_
      exact onward h₁
    | false => exact onward h₀

/-- The program of every job tells the truth. -/
theorem tellingSpec_sound : (tellingSpec A M).Sound (.within n : Means W) noChunks := by
  rintro P j σ ⟨hP, hH, hj⟩
  have h₀ := Honestly.refl hP hH
  -- A parser and its logging method do what a run function of the cell does.
  have started {j : Job W} {τ : Store W} {c : Code W} {s : State Value}
      (h : Honestly A M P σ P τ) (hc : c.Library anything P) (ho : c.Honest A M σ)
      (hs : s.IsPlain) (hj : ∀ r υ, Reply.Tells A M σ υ s r → j.Tells A M σ υ r) :
      TellsFor A M n P j σ (Direct.reply (.code c s)) τ := by
    refine tells_call h ⟨hc, ho.later h.grows, hs⟩ fun r P₁ σ₁ h₁ _ hr => ?_
    exact tells_done h₁ (hj r σ₁ (Reply.Tells.later hr h.grows (.refl σ₁)))
  have logged {j : Job W} {p : ParserId} {s : State Value} (hp : P p) (hs : s.IsPlain)
      (hj : ∀ r υ, Reply.Tells A M σ υ s r → j.Tells A M σ υ r) :
      TellsFor A M n P j σ (p.directLogged s) σ := by
    obtain ⟨c, hc, -, hl⟩ := hP p hp
    obtain ⟨-, ho⟩ := hH p hp c hc
    refine .act fun _ σ₁ e => ?_
    have noted : σ.Noted σ₁ := by
      cases e
      exact .noted _ σ
    refine .act fun d σ₂ e => ?_
    rw [found_eq (noted.parsers ▸ hc)] at e
    cases e
    rw [Direct.done_bind]
    cases hcode : c.logged with
    | some code => exact started (h₀.later noted.grows) (hl code hcode) (ho code hcode) hs hj
    | none => exact tells_fault
  cases j with
  | parser p s =>
    obtain ⟨hp, hs⟩ := hj
    obtain ⟨c, hc, hd, -⟩ := hP p hp
    refine .act fun d σ₁ e => ?_
    rw [found_eq hc] at e
    cases e
    rw [Direct.done_bind]
    cases hcode : c.direct with
    | some code =>
      exact started h₀ (hd code hcode) ((hH p hp c hc).1 code hcode) hs fun _ _ h => h
    | none => exact logged hp hs fun _ _ h => h
  | code c s =>
    obtain ⟨hl, ho, hs⟩ := hj
    cases c with
    | body b => exact body_tells hP hH hl ho hs
    | method p => exact logged hl hs fun _ _ h => h
  | past s token => exact past_tells hP hH hj token

end

/-! ## Errors of runs -/

/-- The state `t` is the plain state `s` advanced by `n` tokens. -/
def State.Advanced (σ : Store W) (n : Nat) (s t : State Value) : Prop :=
  ∃ w i j position u, s = .plain w i position u ∧ t = .plain w j (position + n) u ∧
    ∀ bound, (Stream.rests n i).exec (bound + 1) σ = .ok j σ

/-- The message is the one of a failure, which is among `M`, or it says truly whether the input is
empty, and names the first token if there is one. The token was shown in some store since `σ`. -/
def Reason.Describes (M : String → Prop) (σ τ : Store W) (i : Stream Value) : Reason → Prop
  | .custom message => M message
  | .endOfInput => i.isEmpty.Comes τ (.ok true τ)
  | .unexpected text => i.isEmpty.Comes τ (.ok false τ) ∧
      ∃ v υ, i.first.Comes τ (.ok v τ) ∧ σ.Grows υ ∧ υ.Grows τ ∧ text = υ.render v

/-- What is true of the error `e` of a parser that was started in the state `s` and store `σ`, and
gave up in the state `t` and store `τ`. -/
structure ParseError.Honest (A : Prop) (M : String → Prop) (σ τ : Store W) (s t : State Value)
    (e : ParseError Value) : Prop where
  /-- The error lies so many tokens behind the start, the reply no more. Without an attempt they
  lie at the same place. -/
  advanced : ∃ n m, s.Advanced τ n t ∧ s.Advanced τ m e.state ∧ n ≤ m ∧ (¬A → m = n)
  /-- The message is true. -/
  message : e.reason.Describes M σ τ e.state.input
  /-- Every parser that is expected fails there without consuming. -/
  expected : ∀ p ∈ e.expected,
    ∃ e' τ', (p.run e.state).Comes τ (.ok (.reply (.err false e' e.state)) τ')

section

variable {A : Prop} {M : String → Prop} {σ τ : Store W} {s t : State Value} {i : Stream Value}

theorem State.Follows.advanced {n : Nat} (h : s.Follows τ noChunks n t) (hs : s.IsPlain) :
    s.Advanced τ n t := by
  induction h with
  | refl s =>
    cases s with
    | chunked a c s => cases hs
    | plain w i position u => exact ⟨w, i, i, position, u, rfl, by simp, fun _ => rfl⟩
  | @step n s t u _ behind ih =>
    obtain ⟨w, i, j, position, user, rfl, rfl, rests⟩ := ih hs
    cases behind with
    | @plain _ _ k _ _ next =>
      refine ⟨w, i, k, position, user, rfl, ?_, fun bound => ?_⟩
      · congr 1
        push_cast
        omega
      · have rests : Stream.rests n i (.within (bound + 1)) τ = .ok j τ := rests bound
        rw [Eval.exec, Stream.rests, Eval.run_bind, rests]
        exact rest_of_next next

theorem Reason.Fits.describes {x : Reason} (h : x.Fits M σ τ i) : x.Describes M σ τ i := by
  cases x with
  | custom message => exact h
  | endOfInput => exact Stream.Vacant.comes h
  | unexpected text =>
    obtain ⟨v, υ, head, k, k', e⟩ := h
    exact ⟨head.occupied.comes, v, υ, head.comes, k, k', e⟩

end

/-- The errors of the library's parsers are honest if predicates are pure. The set `P` holds the
parser and all parsers that it starts, `M` the messages of their failures; `A` may be false if none
of them is an attempt. -/
theorem errors_are_honest {A : Prop} {M : String → Prop} {P : ParserId → Prop} {p : ParserId}
    {watched : Bool} {i : Stream Value} {position : Int} {u : Value} {d : Bool}
    {e : ParseError Value} {t : State Value} {σ τ : Store W} {bound : Nat}
    (closed : Closed anything P σ) (honest : AllHonest A M P σ) (hp : P p)
    (run : (p.run (.plain watched i position u)).exec bound σ = .ok (.reply (.err d e t)) τ) :
    e.Honest A M σ τ (.plain watched i position u) t := by
  have comes := (composed_complete _).comes run not_exhausted_ok
  obtain ⟨n, evaluates⟩ := evaluates_of_comes comes
  have told := tellingSpec_sound.evaluates (evaluates n (Nat.le_refl n)) (by simp) P
    ⟨closed, honest, hp, rfl⟩
  obtain ⟨P', -, a, b, ht, he, le, same, sound⟩ := told
  refine ⟨⟨a, b, ht.advanced rfl, he.advanced rfl, le, same⟩, sound.reason.describes, ?_⟩
  exact fun q hq => sound.expected q hq τ (.refl τ) e.state rfl

/-- The error that a run has failed with, and the state in which its parser gave up. -/
def failure? : EStateM.Result Stop (Store W) (Finish W) → Option (ParseError Value × State Value)
  | .ok (.reply (.err _ e t)) _ => some (e, t)
  | _ => none

theorem exists_of_failure {y : EStateM.Result Stop (Store W) (Finish W)} {e : ParseError Value}
    {t : State Value} (h : failure? y = some (e, t)) : ∃ d τ, y = .ok (.reply (.err d e t)) τ := by
  rcases y with ⟨(⟨d, v, u⟩ | ⟨d, e', u⟩) | q, τ⟩ | ⟨stop, τ⟩
  · cases h
  · cases h
    exact ⟨d, τ, rfl⟩
  · cases h
  · cases h

/-- Two attempts fail at the second token. The choice goes back to the start, and its error expects
there what either of them expected. -/
theorem errors_are_honest_choice :
    let pair (n k : Int) : Grammar Unit := .attempt (.plus (.token (.int n)) (.token (.int k)))
    let made := (Grammar.or (pair 1 2) (pair 1 3)).build (Store.initial () fun _ _ => ())
    let start : State Value := .plain false (.cons 0 (.int 1) (.cons 1 (.int 5) .nil)) 0 .none
    ∃ d e t τ, (made.1.run start).exec 50 made.2 = .ok (.reply (.err d e t)) τ ∧
      t.position = 0 ∧ e.state.position = 1 ∧ e.expected.length = 2 ∧
      e.Honest True (fun _ => False) made.2 τ start t := by
  intro pair made start
  have library (n k : Int) : (pair n k).Library anything fun p => p = .finished :=
    .attempt (.plus (.token _) (.token _))
  have honest (n k : Int) : (pair n k).Honest True fun _ => False := by
    refine .node trivial (fun g hg => ?_) (by simp [pair, Grammar.binder?])
    obtain rfl : g = .plus (.token (.int n)) (.token (.int k)) := by
      simpa [pair, Grammar.operands] using hg
    refine .node trivial (fun g hg => ?_) (by simp [Grammar.binder?])
    obtain rfl | rfl : g = .token (.int n) ∨ g = .token (.int k) := by
      simpa [Grammar.operands] using hg
    · exact .node trivial (by simp [Grammar.operands]) (by simp [Grammar.binder?])
    · exact .node trivial (by simp [Grammar.operands]) (by simp [Grammar.binder?])
  have either : (Grammar.or (pair 1 2) (pair 1 3)).Honest True fun _ => False := by
    refine .node trivial (fun g hg => ?_) (by simp [Grammar.binder?])
    obtain rfl | rfl : g = pair 1 2 ∨ g = pair 1 3 := by simpa [Grammar.operands] using hg
    · exact honest 1 2
    · exact honest 1 3
  obtain ⟨P, -, closed, honest, hp⟩ := (allHonest_initial () fun _ _ => ()).build
    (closed_initial () fun _ _ => ()) (.or (library 1 2) (library 1 3)) either
  -- The run is evaluated; that its error is honest follows from the theorem.
  have seen : (failure? ((made.1.run start).exec 50 made.2)).map (fun x =>
      (x.2.position, x.1.state.position, x.1.expected.length)) = some (0, 1, 2) := by
    decide +kernel
  obtain ⟨⟨e, t⟩, failed, seen⟩ := Option.map_eq_some_iff.mp seen
  obtain ⟨d, τ, run⟩ := exists_of_failure failed
  obtain ⟨h₁, h₂, h₃⟩ : t.position = 0 ∧ e.state.position = 1 ∧ e.expected.length = 2 := by
    simpa using seen
  exact ⟨d, e, t, τ, run, h₁, h₂, h₃, errors_are_honest closed honest hp run⟩

end ResumableParsing
